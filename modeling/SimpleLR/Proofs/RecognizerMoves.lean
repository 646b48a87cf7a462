import SimpleLR.Proofs.ViablePrefix
/-!
# The moves of the recognizer

Every step that the recognizer takes on the table of a grammar read from text is one of two
moves that the automaton describes (`Moves`): a shift of a terminal to the state that the top
state goes to on it, or a reduction by the rule of a finished item of the top state, other
than the completed augmented item, to the state that the uncovered state goes to on the
rule's left-hand side (`step_eq_next`); and it accepts only on the end marker, in a state that
holds the completed augmented item (`step_eq_accepted`). So every configuration of a run is
`Viable`: its stack is a path of the automaton and its tokens are the input's, in order.
-/

namespace SimpleLR

namespace Grammar

variable {g : Grammar}

theorem table_analyze (g : Grammar) :
    g.analyze.table = g.tableWith g.vocabulary g.automaton g.analyze.follow :=
  rfl

theorem ruleIndex?_eq_some {lhs : Symbol} {rhs : List Symbol} {k : Nat}
    (h : g.ruleIndex? lhs rhs = some k) :
    ∃ r, g.rules[k]? = some r ∧ r.lhs = lhs ∧ r.rhs = rhs := by
  obtain ⟨hk, hr, -⟩ := List.findIdx?_eq_some_iff_getElem.1 h
  simp only [Bool.and_eq_true, beq_iff_eq] at hr
  exact ⟨_, List.getElem?_eq_getElem hk, hr.1, hr.2⟩

theorem body_eq_of_rhs_eq {r : Rule} {i : Item} (h : r.rhs = i.rhs) : r.body = i.body := by
  rw [Rule.body, h]
  rfl

/-! ## What an action of `slrAction` says -/

section Actions

variable {v : Vocabulary} {follow : Symbol → List Symbol} {st : State} {a : Symbol}

theorem slrAction_cases {x : Action} (h : g.slrAction v follow st a = some x) :
    (∃ n, x = .shift n ∧ v.isTerminal a = true ∧ st.transitions.lookup a = some n) ∨
    (x = .accept ∧ a = endMarker ∧ g.acceptItem ∈ st.items) ∨
    (∃ k, x = .reduce k ∧ ∃ i ∈ g.reducers follow st.items a, g.ruleIndex? i.lhs i.rhs = some k) := by
  unfold slrAction at h
  split at h
  · rename_i hs
    obtain ⟨n, hn, rfl⟩ := Option.map_eq_some_iff.1 h
    exact .inl ⟨n, rfl, hs.1, hn⟩
  · split at h
    · rename_i hacc
      cases h
      exact .inr (.inl ⟨rfl, hacc⟩)
    · obtain ⟨i, hlast, hi⟩ := Option.bind_eq_some_iff.1 h
      obtain ⟨k, hk, rfl⟩ := Option.map_eq_some_iff.1 hi
      exact .inr (.inr ⟨k, rfl, i, List.mem_of_getLast? hlast, hk⟩)

theorem slrAction_eq_shift {n : Nat} (h : g.slrAction v follow st a = some (.shift n)) :
    v.isTerminal a = true ∧ st.transitions.lookup a = some n := by
  rcases slrAction_cases h with ⟨m, hm, hterm, hlookup⟩ | ⟨hx, -⟩ | ⟨k, hx, -⟩
  · cases hm
    exact ⟨hterm, hlookup⟩
  · cases hx
  · cases hx

theorem slrAction_eq_accept (h : g.slrAction v follow st a = some .accept) :
    a = endMarker ∧ g.acceptItem ∈ st.items := by
  rcases slrAction_cases h with ⟨m, hm, -⟩ | ⟨-, hacc⟩ | ⟨k, hx, -⟩
  · cases hm
  · exact hacc
  · cases hx

theorem slrAction_eq_reduce {k : Nat} (h : g.slrAction v follow st a = some (.reduce k)) :
    ∃ i ∈ g.reducers follow st.items a, g.ruleIndex? i.lhs i.rhs = some k := by
  rcases slrAction_cases h with ⟨m, hm, -⟩ | ⟨hx, -⟩ | ⟨m, hm, hi⟩
  · cases hm
  · cases hx
  · cases hm
    exact hi

end Actions

/-! ## Moves -/

/-- One move of the recognizer, as the automaton of `g` describes it. -/
inductive Moves (g : Grammar) : Config → Config → Prop where
  | shift {c : Config} {s : Nat} {below : List Nat} {look : Symbol} {more : List Symbol}
      {n : Nat} :
      c.stack = s :: below → c.rest = look :: more → g.vocabulary.isTerminal look = true →
      g.automaton.target? s look = some n →
      g.Moves c { c with stack := n :: c.stack, rest := more, taken := c.taken + 1, seen := [] }
  | reduce {c : Config} {s : Nat} {below : List Nat} {st : State} {i : Item} {k : Nat}
      {r : Rule} {u : Nat} {lower : List Nat} {n : Nat} :
      c.stack = s :: below → g.automaton.states[s]? = some st → i ∈ st.items →
      i.atEnd = true → i ≠ g.acceptItem → g.rules[k]? = some r → r.lhs = i.lhs →
      r.rhs = i.rhs → c.stack.drop r.body.length = u :: lower →
      g.automaton.target? u r.lhs = some n →
      g.Moves c { c with
        stack := n :: u :: lower
        reduced := k :: c.reduced
        seen := (n :: u :: lower) :: c.seen }

theorem reduceStep_ne_accepted (t : Table) (c : Config) (k : Nat) (r : Rule) (R : List Nat) :
    t.reduceStep c k r ≠ .accepted R := by
  unfold Table.reduceStep
  split
  · simp
  · split
    · simp
    · simp
    · simp
    · dsimp only
      split <;> simp

theorem reduceStep_eq_next {c c' : Config} {k : Nat} {r : Rule}
    (h : g.analyze.table.reduceStep c k r = .next c') :
    ∃ u lower n, c.stack.drop r.body.length = u :: lower ∧
      g.automaton.target? u r.lhs = some n ∧
      c' = { c with
        stack := n :: u :: lower
        reduced := k :: c.reduced
        seen := (n :: u :: lower) :: c.seen } := by
  unfold Table.reduceStep at h
  split at h
  · cases h
  · rename_i u lower hdrop
    split at h
    · cases h
    · cases h
    · cases h
    · rename_i n hcell
      rw [table_analyze] at hcell
      obtain ⟨st, hst, hgoto⟩ := cell_tableWith_eq_goto hcell
      dsimp only at h
      split at h
      · cases h
      · cases h
        exact ⟨u, lower, n, hdrop, (gotoOf_eq_target? hst _).symm.trans hgoto, rfl⟩

/-- Every step of the recognizer on the analysis table that goes on is a move. -/
theorem step_eq_next (hwf : g.WellFormed) {c c' : Config}
    (h : g.analyze.table.step g.rules c = .next c') : g.Moves c c' := by
  obtain ⟨stack, rest, taken, reduced, seen⟩ := c
  match stack, rest, h with
  | [], _, h => cases h
  | _ :: _, [], h => cases h
  | s :: below, look :: more, h =>
    simp only [Table.step] at h
    split at h
    · cases h
    · split at h <;> cases h
    · rename_i n hact
      rw [table_analyze] at hact
      obtain ⟨st, hst, -, hx⟩ := action_tableWith_eq_some hwf hact
      rw [actionOf_eq_slrAction_of_state hwf hst] at hx
      obtain ⟨hterm, hlookup⟩ := slrAction_eq_shift hx
      cases h
      apply Moves.shift rfl rfl hterm
      rw [← gotoOf_eq_target? hst]
      exact hlookup
    · cases h
    · rename_i k hact
      rw [table_analyze] at hact
      obtain ⟨st, hst, -, hx⟩ := action_tableWith_eq_some hwf hact
      rw [actionOf_eq_slrAction_of_state hwf hst] at hx
      obtain ⟨i, hi, hk⟩ := slrAction_eq_reduce hx
      obtain ⟨hmem, hend, hne, -⟩ := mem_reducers.1 hi
      split at h
      · cases h
      · rename_i r hr
        obtain ⟨r', hr', hl, hrhs⟩ := ruleIndex?_eq_some hk
        rw [hr] at hr'
        cases hr'
        obtain ⟨u, lower, n, hdrop, hn, rfl⟩ := reduceStep_eq_next h
        exact Moves.reduce rfl hst hmem hend hne hr hl hrhs hdrop hn

/-- The recognizer accepts only on the end marker, in a state with the completed augmented
item. -/
theorem step_eq_accepted (hwf : g.WellFormed) {c : Config} {R : List Nat}
    (h : g.analyze.table.step g.rules c = .accepted R) :
    ∃ s below more st, c.stack = s :: below ∧ c.rest = endMarker :: more ∧
      g.automaton.states[s]? = some st ∧ g.acceptItem ∈ st.items ∧ R = c.reduced.reverse := by
  obtain ⟨stack, rest, taken, reduced, seen⟩ := c
  match stack, rest, h with
  | [], _, h => cases h
  | _ :: _, [], h => cases h
  | s :: below, look :: more, h =>
    simp only [Table.step] at h
    split at h
    · cases h
    · split at h <;> cases h
    · cases h
    · rename_i hact
      rw [table_analyze] at hact
      obtain ⟨st, hst, -, hx⟩ := action_tableWith_eq_some hwf hact
      rw [actionOf_eq_slrAction_of_state hwf hst] at hx
      obtain ⟨rfl, hacc⟩ := slrAction_eq_accept hx
      cases h
      exact ⟨s, below, more, st, rfl, rfl, hst, hacc, rfl⟩
    · split at h
      · cases h
      · exact absurd h (reduceStep_ne_accepted _ _ _ _ _)

theorem reduced_rule_mem_productions (hwf : g.WellFormed) {s : Nat} {st : State}
    (hst : g.automaton.states[s]? = some st) {i : Item} (hi : i ∈ st.items)
    (hend : i.atEnd = true) (hne : i ≠ g.acceptItem) {k : Nat} {r : Rule}
    (hk : g.rules[k]? = some r) (hl : r.lhs = i.lhs) (hrhs : r.rhs = i.rhs) :
    k ≠ 0 ∧ r ∈ g.productions := by
  have hk0 : k ≠ 0 := by
    rintro rfl
    have hr0 : r = g.startRule := (Option.some.inj hk).symm
    have hitem : g.ItemOf i := itemOf_of_mem_states (List.mem_of_getElem? hst) hi
    apply hne
    apply (eq_acceptItem_of_itemOf hwf.origin_ne_epsilon hitem hend).1
    rw [← hl, ← hrhs, hr0]
    exact ⟨rfl, rfl⟩
  refine ⟨hk0, ?_⟩
  obtain ⟨k', rfl⟩ := Nat.exists_eq_succ_of_ne_zero hk0
  rw [rules, List.getElem?_cons_succ] at hk
  exact List.mem_of_getElem? hk

/-! ## Viable configurations -/

/-- A configuration that a run on the input `w` reaches: its stack is a path of the automaton
that read `syms`, and the tokens not taken are those of the input after the taken ones, the end
marker last. -/
structure Viable (g : Grammar) (w : List Symbol) (c : Config) (syms : List Symbol) : Prop where
  path : g.automaton.Path c.stack syms
  taken_le : c.taken ≤ (w.filter (· != endMarker)).length
  rest_eq : c.rest = (w.filter (· != endMarker)).drop c.taken ++ [endMarker]

theorem Viable.start (w : List Symbol) : Viable g w (Table.start w) [] where
  path := .start
  taken_le := Nat.zero_le _
  rest_eq := rfl

theorem Viable.getElem?_taken {w : List Symbol} {c : Config} {syms : List Symbol}
    (hv : Viable g w c syms) {look : Symbol} {more : List Symbol} (hr : c.rest = look :: more)
    (hlook : look ≠ endMarker) :
    (w.filter (· != endMarker))[c.taken]? = some look ∧
      more = (w.filter (· != endMarker)).drop (c.taken + 1) ++ [endMarker] := by
  rw [hv.rest_eq] at hr
  have hlt : c.taken < (w.filter (· != endMarker)).length := by
    apply Nat.lt_of_not_le
    intro hle
    rw [List.drop_eq_nil_of_le hle] at hr
    exact hlook (List.cons.inj hr).1.symm
  rw [List.drop_eq_getElem_cons hlt, List.cons_append] at hr
  obtain ⟨hx, hmore⟩ := List.cons.inj hr
  exact ⟨by rw [List.getElem?_eq_getElem hlt, hx], hmore.symm⟩

theorem Viable.shift (hwf : g.WellFormed) {w : List Symbol} {c : Config} {syms : List Symbol}
    (hv : Viable g w c syms) {s : Nat} {below : List Nat} {look : Symbol} {more : List Symbol}
    {n : Nat} (hs : c.stack = s :: below) (hr : c.rest = look :: more)
    (hterm : g.vocabulary.isTerminal look = true) (hn : g.automaton.target? s look = some n) :
    Viable g w { c with stack := n :: c.stack, rest := more, taken := c.taken + 1, seen := [] }
      (look :: syms) := by
  obtain ⟨hget, hmore⟩ := hv.getElem?_taken hr (hwf.ne_endMarker_of_isTerminal hterm)
  refine ⟨?_, ?_, hmore⟩
  · have hpath := hv.path
    rw [hs] at hpath ⊢
    exact .step hpath hn
  · exact (List.getElem?_eq_some_iff.1 hget).1

theorem Viable.reduce (hwf : g.WellFormed) {w : List Symbol} {c : Config} {syms : List Symbol}
    (hv : Viable g w c syms) {s : Nat} {below : List Nat} {st : State} {i : Item}
    (hs : c.stack = s :: below) (hst : g.automaton.states[s]? = some st) (hi : i ∈ st.items)
    (hend : i.atEnd = true) (hne : i ≠ g.acceptItem) {k : Nat} {r : Rule} (hrhs : r.rhs = i.rhs)
    {u : Nat} {lower : List Nat} {n : Nat} (hdrop : c.stack.drop r.body.length = u :: lower)
    (hn : g.automaton.target? u r.lhs = some n) :
    Viable g w { c with
      stack := n :: u :: lower
      reduced := k :: c.reduced
      seen := (n :: u :: lower) :: c.seen } (r.lhs :: syms.drop r.body.length) := by
  obtain ⟨hle, -, -⟩ := Path.reduce hwf hv.path hs hst hi hend hne
  rw [← body_eq_of_rhs_eq hrhs] at hle
  have hpath := hv.path.drop hle
  rw [hdrop] at hpath
  exact ⟨.step hpath hn, hv.taken_le, hv.rest_eq⟩

theorem Moves.viable (hwf : g.WellFormed) {w : List Symbol} {c c' : Config}
    {syms : List Symbol} (hm : g.Moves c c') (hv : Viable g w c syms) :
    ∃ syms', Viable g w c' syms' := by
  cases hm with
  | shift hs hr hterm hn => exact ⟨_, hv.shift hwf hs hr hterm hn⟩
  | reduce hs hst hi hend hne _ _ hrhs hdrop hn =>
    exact ⟨_, hv.reduce hwf hs hst hi hend hne hrhs hdrop hn⟩

end Grammar

end SimpleLR
