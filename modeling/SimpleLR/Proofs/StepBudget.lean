import SimpleLR.Proofs.StepSafety
import SimpleLR.Proofs.SeenStacks
import SimpleLR.Proofs.FollowSets
/-!
# Without empty alternatives a run ends within its steps

On the table of a grammar without empty alternatives a reduction pops at least one state. So
between two shifts every stack reached is a state on a proper suffix of `base`, the stack after the
last shift, and the recognizer refuses to reach one twice: there are at most `rows * (|base| - 1)`
of them (`length_le_of_stacks`), and `base` is at most one state longer than the tokens taken.
`budgetLeft` counts the tokens left, each worth the most steps between two shifts, and the stacks
that can still be reached before the next shift; every step lowers it (`BudgetInv.step`), so a
run given more steps never runs out of them (`run_ne_outOfSteps`), and the recognizer gives a run
more (`budgetLeft_start_lt`).
-/

namespace SimpleLR

namespace Table

variable {t : Table} {rules : List Rule}

theorem step_ne_outOfSteps (c : Config) : t.step rules c ≠ .failed .outOfSteps := by
  obtain ⟨stack, rest, taken, reduced, seen⟩ := c
  intro h
  match stack, rest, h with
  | [], _, h => cases h
  | _ :: _, [], h => cases h
  | s :: below, look :: more, h =>
    simp only [step] at h
    split at h
    · cases h
    · split at h <;> cases h
    · cases h
    · cases h
    · split at h
      · cases h
      · simp only [reduceStep] at h
        split at h
        · split at h <;> cases h
        · split at h
          · cases h
          · cases h
          · cases h
          · split at h <;> cases h

theorem run_eq_of_ne_outOfSteps {fuel fuel' : Nat} {c : Config}
    (h : t.run rules fuel c ≠ .error .outOfSteps) (hle : fuel ≤ fuel') :
    t.run rules fuel' c = t.run rules fuel c := by
  induction fuel generalizing c fuel' with
  | zero => exact absurd rfl h
  | succ fuel ih =>
    obtain ⟨fuel', rfl⟩ := Nat.exists_eq_succ_of_ne_zero (by omega : fuel' ≠ 0)
    rw [run] at h
    rw [run, run]
    cases hstep : t.step rules c with
    | next c' =>
      rw [hstep] at h
      exact ih h (by omega)
    | accepted R => rfl
    | failed e => rfl

end Table

namespace Grammar

variable {g : Grammar}

/-- Distinct stacks, each a state below `rows` on a proper suffix of `base`, number at most
`rows * (|base| - 1)`. -/
theorem length_le_of_stacks {seen : List (List Nat)} {base : List Nat} {rows : Nat}
    (hnodup : seen.Nodup)
    (h : ∀ σ ∈ seen, ∃ x j, σ = x :: base.drop j ∧ x < rows ∧ 0 < j ∧ j < base.length) :
    seen.length ≤ rows * (base.length - 1) := by
  classical
  have hsub : seen.toFinset ⊆ (Finset.range rows ×ˢ Finset.Ioo 0 base.length).image
      fun p => p.1 :: base.drop p.2 := by
    intro σ hσ
    obtain ⟨x, j, rfl, hx, hj, hj'⟩ := h σ (List.mem_toFinset.1 hσ)
    exact Finset.mem_image.2 ⟨(x, j), by simp [hx, hj, hj'], rfl⟩
  calc seen.length = seen.toFinset.card := (List.toFinset_card_of_nodup hnodup).symm
    _ ≤ _ := Finset.card_le_card hsub
    _ ≤ (Finset.range rows ×ˢ Finset.Ioo 0 base.length).card := Finset.card_image_le
    _ = rows * (base.length - 1) := by simp

/-- What a run on the table of a grammar without empty alternatives keeps, on an input of `len`
tokens, where `base` is the stack after the last shift: the tokens taken and left are at most the
input and the end marker; the stack, and every stack seen since the last shift, each once, is
`base` or a state on a proper suffix of it; and `base` is at most one state longer than the
tokens taken. -/
structure BudgetInv (g : Grammar) (len : Nat) (c : Config) (base : List Nat) : Prop where
  taken_add : c.taken + c.rest.length ≤ len + 1
  base_le : base.length ≤ c.taken + 1
  stack : c.stack = base ∨ ∃ x j, c.stack = x :: base.drop j ∧ 0 < j ∧ j < base.length
  seen : ∀ σ ∈ c.seen, ∃ x j, σ = x :: base.drop j ∧ x < g.automaton.states.length ∧
    0 < j ∧ j < base.length
  nodup : c.seen.Nodup

/-- The steps that a run from `c` can still take, with `rows` states, on an input of `len`
tokens: the tokens left, each worth the most steps between two shifts, and the stacks that can
still be reached before the next shift. -/
def budgetLeft (rows len : Nat) (c : Config) : Nat :=
  c.rest.length * ((len + 1) * rows + 1) + (rows * c.taken - c.seen.length)

section Budget

variable {len : Nat} {c : Config} {base : List Nat}

theorem BudgetInv.seen_length_le (h : g.BudgetInv len c base) :
    c.seen.length ≤ g.automaton.states.length * c.taken := by
  have hlen := length_le_of_stacks h.nodup h.seen
  have hbase : base.length - 1 ≤ c.taken := by
    have := h.base_le
    omega
  exact hlen.trans (Nat.mul_le_mul_left _ hbase)

theorem BudgetInv.stack_length_le (h : g.BudgetInv len c base) :
    c.stack.length ≤ c.taken + 1 := by
  have hbase := h.base_le
  rcases h.stack with hs | ⟨x, j, hs, hj, -⟩
  · rw [hs]
    exact hbase
  · rw [hs, List.length_cons, List.length_drop]
    omega

theorem BudgetInv.drop_stack (h : g.BudgetInv len c base) {p : Nat} (hp : 0 < p) {u : Nat}
    {lower : List Nat} (hdrop : c.stack.drop p = u :: lower) :
    ∃ j, u :: lower = base.drop j ∧ 0 < j ∧ j < base.length := by
  have hlt : ∀ {l : List Nat} {m : Nat}, l.drop m = u :: lower → m < l.length := by
    intro l m hl
    by_contra hge
    rw [List.drop_eq_nil_of_le (by omega)] at hl
    cases hl
  rcases h.stack with hs | ⟨x, j, hs, hj, -⟩
  · rw [hs] at hdrop
    exact ⟨p, hdrop.symm, hp, hlt hdrop⟩
  · obtain ⟨q, rfl⟩ := Nat.exists_eq_add_of_lt hp
    rw [hs, Nat.zero_add, List.drop_succ_cons, List.drop_drop] at hdrop
    exact ⟨j + q, hdrop.symm, by omega, hlt hdrop⟩

theorem BudgetInv.shift (h : g.BudgetInv len c base) {n : Nat} {more : List Symbol}
    {a : Symbol} (hrest : c.rest = a :: more) :
    g.BudgetInv len { c with stack := n :: c.stack, rest := more, taken := c.taken + 1, seen := [] }
        (n :: c.stack) ∧
      budgetLeft g.automaton.states.length len
          { c with stack := n :: c.stack, rest := more, taken := c.taken + 1, seen := [] } <
        budgetLeft g.automaton.states.length len c := by
  have htaken := h.taken_add
  have hstack := h.stack_length_le
  have hseen := h.seen_length_le
  rw [hrest, List.length_cons] at htaken
  refine ⟨⟨by simp only; omega, by simp only [List.length_cons]; omega, .inl rfl, by simp,
    List.nodup_nil⟩, ?_⟩
  -- the token taken is worth more than the stacks that a shift makes reachable again
  have hmul : g.automaton.states.length * (c.taken + 1) ≤ (len + 1) * g.automaton.states.length :=
    (Nat.mul_comm _ _).le.trans (Nat.mul_le_mul_right _ (by omega))
  have e1 := Nat.mul_add_one g.automaton.states.length c.taken
  have e2 := Nat.add_one_mul more.length ((len + 1) * g.automaton.states.length + 1)
  have e3 := Nat.sub_add_cancel hseen
  simp only [budgetLeft, hrest, List.length_cons, List.length_nil, Nat.sub_zero]
  omega

theorem BudgetInv.reduce (h : g.BudgetInv len c base) {p : Nat} (hp : 0 < p) {u n k : Nat}
    {lower : List Nat} (hdrop : c.stack.drop p = u :: lower) (hn : n < g.automaton.states.length)
    (hfresh : n :: u :: lower ∉ c.seen) {c' : Config}
    (hc' : c' = { c with
      stack := n :: u :: lower
      reduced := k :: c.reduced
      seen := (n :: u :: lower) :: c.seen }) :
    g.BudgetInv len c' base ∧
      budgetLeft g.automaton.states.length len c' < budgetLeft g.automaton.states.length len c := by
  obtain ⟨j, hj, hj0, hjlt⟩ := h.drop_stack hp hdrop
  subst hc'
  have hinv : g.BudgetInv len { c with
      stack := n :: u :: lower
      reduced := k :: c.reduced
      seen := (n :: u :: lower) :: c.seen } base := by
    refine ⟨h.taken_add, h.base_le, .inr ⟨n, j, by rw [hj], hj0, hjlt⟩, ?_,
      List.nodup_cons.2 ⟨hfresh, h.nodup⟩⟩
    intro σ hσ
    rcases List.mem_cons.1 hσ with rfl | hσ
    · exact ⟨n, j, by rw [hj], hn, hj0, hjlt⟩
    · exact h.seen σ hσ
  refine ⟨hinv, ?_⟩
  have hseen := hinv.seen_length_le
  simp only [List.length_cons] at hseen
  simp only [budgetLeft, List.length_cons]
  generalize g.automaton.states.length * c.taken = A at hseen ⊢
  omega

/-- Every step of a run lowers `budgetLeft` and keeps the invariant, with the stack of a shift
as the new `base`. -/
theorem BudgetInv.step (hg : g.Nonerasing) (h : g.BudgetInv len c base) {c' : Config}
    (hstep : g.analyze.table.step g.rules c = .next c') :
    ∃ base', g.BudgetInv len c' base' ∧
      budgetLeft g.automaton.states.length len c' < budgetLeft g.automaton.states.length len c := by
  rcases Table.step_eq_next_iff.1 hstep with
    ⟨s, below, look, more, n, -, hrest, -, rfl⟩ |
    ⟨s, below, look, more, k, r, u, lower, n, -, -, -, hk, hdrop, hcell, hfresh, rfl⟩
  · exact ⟨_, h.shift hrest⟩
  · have hp : 0 < r.body.length :=
      List.length_pos_of_ne_nil (hg.body_ne_nil r (List.mem_of_getElem? hk))
    have hn : n < g.automaton.states.length := by
      rw [table_analyze] at hcell
      obtain ⟨st, hst, hgoto⟩ := cell_tableWith_eq_goto hcell
      rw [gotoOf_eq_target? hst] at hgoto
      obtain ⟨-, st', -, -, hst', -⟩ := goto_of_target? hgoto
      exact (List.getElem?_eq_some_iff.1 hst').1
    exact ⟨base, h.reduce hp hdrop hn hfresh rfl⟩

end Budget

/-- A run with more steps than `budgetLeft` never runs out of them. -/
theorem run_ne_outOfSteps (hg : g.Nonerasing) {len : Nat} :
    ∀ (fuel : Nat) {c : Config} {base : List Nat}, g.BudgetInv len c base →
      budgetLeft g.automaton.states.length len c < fuel →
      g.analyze.table.run g.rules fuel c ≠ .error .outOfSteps := by
  intro fuel
  induction fuel with
  | zero => exact fun _ hlt => absurd hlt (Nat.not_lt_zero _)
  | succ fuel ih =>
    intro c base hinv hlt
    rw [Table.run]
    cases hstep : g.analyze.table.step g.rules c with
    | next c' =>
      obtain ⟨base', hinv', hdec⟩ := hinv.step hg hstep
      exact ih hinv' (by omega)
    | accepted R => simp
    | failed e =>
      simp only [ne_eq, Except.error.injEq]
      rintro rfl
      exact Table.step_ne_outOfSteps c hstep

theorem budgetInv_start (w : List Symbol) : g.BudgetInv w.length (Table.start w) [0] where
  taken_add := by simpa [Table.start] using List.length_filter_le (· != endMarker) w
  base_le := Nat.le_refl _
  stack := .inl rfl
  seen := by simp [Table.start]
  nodup := List.nodup_nil

/-- The recognizer gives a run more steps than it can take from the start. -/
theorem budgetLeft_start_lt (w : List Symbol) :
    budgetLeft g.automaton.states.length w.length (Table.start w) <
      g.analyze.table.stepBudget g.rules w := by
  have hrows : g.analyze.table.rows.length = g.automaton.states.length := by
    simp [table_analyze, tableWith]
  have hrest : (Table.start w).rest.length ≤ w.length + 1 := by
    simpa [Table.start] using List.length_filter_le (· != endMarker) w
  simp only [budgetLeft, Table.stepBudget, hrows]
  simp only [Table.start, Nat.mul_zero, List.length_nil, Nat.sub_zero, Nat.add_zero]
  generalize w.length + 1 = n at hrest ⊢
  generalize g.automaton.states.length = rows
  have hweight : n * rows + 1 ≤ (n + rows + 2) * (rows + 1) := by nlinarith
  have hpow : rows + 1 ≤ Nat.pow (rows + 1) (rows + 1 + 1) := by
    rw [Nat.pow_eq]
    exact Nat.le_self_pow (by omega) _
  calc ((w.filter (· != endMarker)) ++ [endMarker]).length * (n * rows + 1)
      ≤ n * (n * rows + 1) := Nat.mul_le_mul_right _ (by simpa [Table.start] using hrest)
    _ ≤ n * ((n + rows + 2) * (rows + 1)) := Nat.mul_le_mul_left _ hweight
    _ ≤ n * (n + (rows + 1) + 1) * Nat.pow (rows + 1) (rows + 1 + 1) := by
      rw [← Nat.mul_assoc, show n + rows + 2 = n + (rows + 1) + 1 by omega]
      exact Nat.mul_le_mul_left _ hpow
    _ ≤ n * (n + (rows + 1) + 1) * Nat.pow (rows + 1) (rows + 1 + 1) * (g.rules.length + 1) :=
      Nat.le_mul_of_pos_right _ (Nat.succ_pos _)
    _ < _ := Nat.lt_succ_self _

theorem recognize_ne_outOfSteps (hg : g.Nonerasing) (w : List Symbol) :
    g.analyze.table.recognize g.rules w ≠ .error .outOfSteps :=
  run_ne_outOfSteps hg _ (budgetInv_start w) (budgetLeft_start_lt w)

theorem halts_of_endsSafely {r : Except RunError (List Nat)} (h : endsSafely r = true)
    (hne : r ≠ .error .outOfSteps) :
    (∃ R, r = .ok R) ∨ (∃ s place expected, r = .error (.noAction s place expected)) ∨
      ∃ k text t, r = .error (.reduceCycle k text t) := by
  cases r with
  | ok R => exact .inl ⟨R, rfl⟩
  | error e =>
    cases e with
    | noAction s place expected => exact .inr (.inl ⟨s, place, expected, rfl⟩)
    | reduceCycle k text t => exact .inr (.inr ⟨k, text, t, rfl⟩)
    | outOfSteps => exact absurd rfl hne
    | _ => cases h

/-- On the table of a grammar read from text with no empty alternative, whose states and rules
can be counted in a signed word, the recognizer ends on every input: it accepts, finds no action
for the next token, or closes a cycle of reductions. -/
theorem recognize_halts_of_epsilonFree {text : String} {g : Grammar}
    (hg : Grammar.read text = .ok g) (hfree : g.EpsilonFree)
    (hsize : fitsWord g.analyze.automaton.states.length = true ∧ fitsWord g.rules.length = true)
    (w : List Symbol) :
    (∃ R, g.analyze.table.recognize g.rules w = .ok R) ∨
      (∃ s place expected,
        g.analyze.table.recognize g.rules w = .error (.noAction s place expected)) ∨
      ∃ k text t, g.analyze.table.recognize g.rules w = .error (.reduceCycle k text t) := by
  have hsafe : endsSafely (g.analyze.table.recognize g.rules w) = true :=
    run_endsSafely (read_wellFormed hg) hsize _ (Viable.start w)
  exact halts_of_endsSafely hsafe (recognize_ne_outOfSteps (nonerasing_of_read hg hfree) w)

/-- The grammar `S -> A`, `A -> A | a`, whose rule `A -> A` reduces to the stack it starts from. -/
def unitLoop : Grammar :=
  ⟨"S", "S'", [⟨"S", ["A"], some 1⟩, ⟨"A", ["A"], some 2⟩, ⟨"A", ["a"], some 2⟩]⟩

set_option maxRecDepth 1500 in
/-- In `S -> A`, `A -> A | a` the recognizer ends on `a` although the grammar derives it: after
`a` is reduced to `A`, the later finished item `A -> A ·` wins the end marker's cell, and
reducing by it leads back to the same stack. -/
theorem recognize_halts_of_epsilonFree_unitLoop :
    Grammar.read "S -> A\nA -> A | a" = .ok unitLoop ∧ unitLoop.EpsilonFree ∧
      (fitsWord unitLoop.analyze.automaton.states.length = true ∧
        fitsWord unitLoop.rules.length = true) ∧
      ((∃ R, unitLoop.analyze.table.recognize unitLoop.rules ["a"] = .ok R) ∨
        (∃ s place expected,
          unitLoop.analyze.table.recognize unitLoop.rules ["a"] = .error (.noAction s place expected)) ∨
        ∃ k text t,
          unitLoop.analyze.table.recognize unitLoop.rules ["a"] = .error (.reduceCycle k text t)) := by
  have hread : Grammar.read "S -> A\nA -> A | a" = .ok unitLoop := by rfl
  have hfree : unitLoop.EpsilonFree := by decide
  have hstates : unitLoop.analyze.automaton.states.length = 4 := by cbv
  have hsize : fitsWord unitLoop.analyze.automaton.states.length = true ∧
      fitsWord unitLoop.rules.length = true := by
    rw [hstates]
    exact ⟨by decide, by decide⟩
  exact ⟨hread, hfree, hsize, recognize_halts_of_epsilonFree hread hfree hsize ["a"]⟩

/-- The run on `a` in `S -> A`, `A -> A | a` closes the cycle of `A -> A` in state 0. -/
example : unitLoop.analyze.table.recognize unitLoop.rules ["a"] =
    .error (.reduceCycle 2 "A -> A" 0) := by
  simp only [Table.recognize, Table.stepBudget, Nat.pow_eq]
  cbv

end Grammar

end SimpleLR
