import SimpleLR.Proofs.RecognizerSound
/-!
# Every step of the recognizer is defined

On the table of a grammar read from text, a step from a viable configuration never meets a
missing token, an empty stack, an unknown rule, an unreadable cell or a missing goto: the stack
is a path of the automaton, so a finished item's body is on it and the uncovered state has a
transition on the rule's left-hand side (`Path.reduce`); and the numbers of states and rules fit
in a signed word, as every sequence of the machine does, so every state can be looked up and
every action cell read back. A step therefore goes on, accepts, finds no action for the next
token, or closes a cycle of reductions (`step_safe`), and a run ends in one of these ways or runs
out of steps.

The main statement, `recognize_ends_safely`.
-/

namespace SimpleLR

/-- Whether a run ended in a way that a run whose every step is defined can end: it accepted,
found no action for the next token, closed a cycle of reductions, or ran out of steps. -/
def endsSafely : Except RunError (List Nat) → Bool
  | .ok _ => true
  | .error (.noAction _ _ _) => true
  | .error (.reduceCycle _ _ _) => true
  | .error .outOfSteps => true
  | .error _ => false

theorem fitsWord_of_lt {m n : Nat} (hmn : m < n) (hn : fitsWord n = true) : fitsWord m = true := by
  simp only [fitsWord, Bool.and_eq_true, decide_eq_true_eq] at hn ⊢
  omega

theorem lt_tenPow_of_fitsWord {n : Nat} (hn : fitsWord n = true) : n < Nat.pow 10 digitLimit := by
  simp only [fitsWord, Bool.and_eq_true, decide_eq_true_eq] at hn
  have hword : n < Nat.pow 10 19 := by
    have hlt : (9223372036854775807 : Nat) < Nat.pow 10 19 := by decide
    omega
  have hmono : Nat.pow 10 19 ≤ Nat.pow 10 digitLimit := by
    rw [Nat.pow_eq, Nat.pow_eq]
    exact Nat.pow_le_pow_right (by decide) (by decide)
  exact Nat.lt_of_lt_of_le hword hmono

namespace Grammar

variable {g : Grammar}

theorem expected_tableWith {a : Automaton} {follow : Symbol → List Symbol} {s : Nat}
    {st : State} (hs : a.states[s]? = some st) (hfit : fitsWord s = true) :
    ∃ exp, (g.tableWith g.vocabulary a follow).expected s = .ok exp := by
  simp only [Table.expected, row_tableWith hs hfit, bind, Except.bind, pure, Except.pure]
  exact ⟨_, rfl⟩

section Sized

variable (hwf : g.WellFormed)
  (hsize : fitsWord g.automaton.states.length = true ∧ fitsWord g.rules.length = true)

include hsize in
theorem fitsWord_of_state {s : Nat} {st : State} (hs : g.automaton.states[s]? = some st) :
    fitsWord s = true :=
  fitsWord_of_lt (List.getElem?_eq_some_iff.1 hs).1 hsize.1

include hsize in
theorem arg_lt_of_slrAction {s : Nat} {st : State} (hs : g.automaton.states[s]? = some st)
    {a : Symbol} {x : Action} (hx : g.slrAction g.vocabulary g.analyze.follow st a = some x) :
    x.arg < Nat.pow 10 digitLimit := by
  rcases slrAction_cases hx with ⟨n, rfl, -, hlookup⟩ | ⟨rfl, -⟩ | ⟨k, rfl, i, -, hk⟩
  · have hn : g.automaton.target? s a = some n := by
      rw [← gotoOf_eq_target? hs]
      exact hlookup
    obtain ⟨st', -, hst', -⟩ := target?_goto? hs hn
    exact lt_tenPow_of_fitsWord (fitsWord_of_state hsize hst')
  · show 0 < Nat.pow 10 digitLimit
    rw [Nat.pow_eq]
    exact Nat.pow_pos (by decide)
  · obtain ⟨r, hr, -⟩ := ruleIndex?_eq_some hk
    exact lt_tenPow_of_fitsWord (fitsWord_of_lt (List.getElem?_eq_some_iff.1 hr).1 hsize.2)

include hwf hsize in
/-- A step from a viable configuration goes on, accepts, or ends in a way that `endsSafely`
allows. -/
theorem step_safe {w : List Symbol} {c : Config} {syms : List Symbol} (hv : Viable g w c syms) :
    (∃ c', g.analyze.table.step g.rules c = .next c') ∨
      (∃ R, g.analyze.table.step g.rules c = .accepted R) ∨
      ∃ e, g.analyze.table.step g.rules c = .failed e ∧ endsSafely (.error e) = true := by
  obtain ⟨s, below, hstack⟩ := hv.path.exists_cons
  have hpath := hv.path
  rw [hstack] at hpath
  obtain ⟨st, hst⟩ := exists_state_of_path hpath
  have hfit := fitsWord_of_state hsize hst
  obtain ⟨look, more, hrest⟩ : ∃ look more, c.rest = look :: more := by
    rw [hv.rest_eq]
    cases (w.filter (· != endMarker)).drop c.taken with
    | nil => exact ⟨_, _, rfl⟩
    | cons x xs => exact ⟨_, _, rfl⟩
  obtain ⟨exp, hexp⟩ : ∃ exp,
      (g.tableWith g.vocabulary g.automaton g.analyze.follow).expected s = .ok exp :=
    expected_tableWith hst hfit
  obtain ⟨stack, rest, taken, reduced, seen⟩ := c
  simp only at hstack hrest
  subst hstack hrest
  simp only [Table.step]
  rw [table_analyze]
  by_cases hcol : look ∈ g.vocabulary.actionColumns
  · have hsmall : ∀ x ∈ g.actionOf g.vocabulary g.analyze.follow st look,
        x.arg < Nat.pow 10 digitLimit := by
      intro x hx
      rw [actionOf_eq_slrAction_of_state hwf hst] at hx
      exact arg_lt_of_slrAction hsize hst (Option.mem_def.1 hx)
    rw [action_tableWith_of_mem hwf hst hfit hcol hsmall, actionOf_eq_slrAction_of_state hwf hst]
    cases hx : g.slrAction g.vocabulary g.analyze.follow st look with
    | none =>
      refine .inr (.inr ⟨.noAction s (if look = endMarker then none else some (taken, look)) exp,
        ?_, rfl⟩)
      simp only [hexp]
    | some x =>
      cases x with
      | shift n => exact .inl ⟨_, rfl⟩
      | accept => exact .inr (.inl ⟨_, rfl⟩)
      | reduce k =>
        obtain ⟨i, hi, hk⟩ := slrAction_eq_reduce hx
        obtain ⟨hmem, hend, hne, -⟩ := mem_reducers.1 hi
        obtain ⟨r, hr, hl, hrhs⟩ := ruleIndex?_eq_some hk
        obtain ⟨-, hprod⟩ := reduced_rule_mem_productions hwf hst hmem hend hne hr hl hrhs
        obtain ⟨hle, -, u, lower, n, hdrop, hn⟩ := Path.reduce hwf hv.path rfl hst hmem hend hne
        have hpathu := hv.path.drop hle
        rw [hdrop] at hpathu
        obtain ⟨stu, hstu⟩ := exists_state_of_path hpathu
        have hcell : (g.tableWith g.vocabulary g.automaton g.analyze.follow).cell u r.lhs =
            .ok (.goto n) := by
          rw [cell_tableWith_goto hwf hstu (fitsWord_of_state hsize hstu) hprod,
            gotoOf_eq_target? hstu, hl, hn]
          rfl
        dsimp only
        rw [hr]
        dsimp only
        simp only [Table.reduceStep]
        rw [body_eq_of_rhs_eq hrhs, hdrop]
        dsimp only
        rw [hcell]
        dsimp only
        split
        · exact .inr (.inr ⟨_, rfl, rfl⟩)
        · exact .inl ⟨_, rfl⟩
  · rw [action_tableWith_of_not_mem hwf hcol]
    refine .inr (.inr ⟨.noAction s (if look = endMarker then none else some (taken, look)) exp,
      ?_, rfl⟩)
    simp only [hexp]

include hwf hsize in
theorem run_endsSafely {w : List Symbol} :
    ∀ (fuel : Nat) {c : Config} {syms : List Symbol}, Viable g w c syms →
      endsSafely (g.analyze.table.run g.rules fuel c) = true
  | 0, _, _, _ => rfl
  | fuel + 1, c, _, hv => by
    rw [Table.run]
    rcases step_safe hwf hsize hv with ⟨c', hstep⟩ | ⟨R, hstep⟩ | ⟨e, hstep, he⟩
    · rw [hstep]
      obtain ⟨syms', hv'⟩ := (step_eq_next hwf hstep).viable hwf hv
      exact run_endsSafely fuel hv'
    · rw [hstep]
      rfl
    · rw [hstep]
      exact he

end Sized

/-- On the table of a grammar read from text whose states and rules can be counted in a signed
word, every step of a run is defined: a run, the recognizer's own included, accepts, finds no
action for the next token, closes a cycle of reductions, or runs out of steps. -/
theorem recognize_ends_safely {text : String} {g : Grammar} (hg : Grammar.read text = .ok g)
    (hsize : fitsWord g.analyze.automaton.states.length = true ∧ fitsWord g.rules.length = true)
    (w : List Symbol) :
    (∀ fuel, endsSafely (g.analyze.table.run g.rules fuel (Table.start w)) = true) ∧
      endsSafely (g.analyze.table.recognize g.rules w) = true := by
  have hwf := read_wellFormed hg
  have hrun : ∀ fuel, endsSafely (g.analyze.table.run g.rules fuel (Table.start w)) = true :=
    fun fuel => run_endsSafely hwf hsize fuel (Viable.start w)
  exact ⟨hrun, hrun _⟩

set_option maxRecDepth 1500 in
/-- In the grammar of sums the input `id +` ends with no action at the end, every step defined. -/
theorem recognize_ends_safely_sums :
    Grammar.read "E -> E + T | T\nT -> id" = .ok sums ∧
      (fitsWord sums.analyze.automaton.states.length = true ∧ fitsWord sums.rules.length = true) ∧
      (∀ fuel, endsSafely (sums.analyze.table.run sums.rules fuel (Table.start ["id", "+"])) = true) ∧
      endsSafely (sums.analyze.table.recognize sums.rules ["id", "+"]) = true := by
  have hread : Grammar.read "E -> E + T | T\nT -> id" = .ok sums := by rfl
  have hstates : sums.analyze.automaton.states.length = 6 := by cbv
  have hsize : fitsWord sums.analyze.automaton.states.length = true ∧
      fitsWord sums.rules.length = true := by
    rw [hstates]
    exact ⟨by decide, by decide⟩
  exact ⟨hread, hsize, recognize_ends_safely hread hsize ["id", "+"]⟩

end Grammar

end SimpleLR
