import SimpleLR.Recognizer
/-!
# Runs that ignore the stacks seen

A step of the recognizer goes on by a shift of the next token, or by a reduction to a stack that
was not seen since the last shift (`step_eq_next_iff`); it accepts on an accept action
(`step_eq_accepted_iff`). `Table.Runs` takes steps as if no stack had been seen, and
`Table.Accepts` says that such steps end in accept.

Whether a step goes on, and to which stack and tokens, or accepts, depends only on the stack, the
tokens and the stacks seen (`step_congr`). So two configurations with the same stack and tokens
accept after the same number of steps that ignore the stacks seen (`Accepts.steps_eq`), and a run
that accepts that way never comes back, before a shift, to a stack it has seen: from there it
would accept sooner. The recognizer then takes the same steps and accepts with the same rules
(`run_eq_ok_of_accepts`).
-/

namespace SimpleLR

namespace Table

variable {t : Table} {rules : List Rule}

/-! ## What a step does -/

/-- A step goes on by shifting the next token, or by reducing by the rule of a reduce action to
the goto of the state uncovered, when that stack was not seen since the last shift. -/
theorem step_eq_next_iff {c c' : Config} : t.step rules c = .next c' ↔
    (∃ s below look more n, c.stack = s :: below ∧ c.rest = look :: more ∧
      t.action s look = .ok (some (.shift n)) ∧
      c' = { c with stack := n :: c.stack, rest := more, taken := c.taken + 1, seen := [] }) ∨
    (∃ s below look more k r u lower n, c.stack = s :: below ∧ c.rest = look :: more ∧
      t.action s look = .ok (some (.reduce k)) ∧ rules[k]? = some r ∧
      c.stack.drop r.body.length = u :: lower ∧ t.cell u r.lhs = .ok (.goto n) ∧
      n :: u :: lower ∉ c.seen ∧
      c' = { c with
        stack := n :: u :: lower
        reduced := k :: c.reduced
        seen := (n :: u :: lower) :: c.seen }) := by
  obtain ⟨stack, rest, taken, reduced, seen⟩ := c
  constructor
  · intro h
    match stack, rest, h with
    | [], _, h => cases h
    | _ :: _, [], h => cases h
    | s :: below, look :: more, h =>
      simp only [step] at h
      split at h
      · cases h
      · split at h <;> cases h
      · rename_i n hact
        cases h
        exact .inl ⟨s, below, look, more, n, rfl, rfl, hact, rfl⟩
      · cases h
      · rename_i k hact
        split at h
        · cases h
        · rename_i r hr
          simp only [reduceStep] at h
          split at h
          · cases h
          · rename_i u lower hdrop
            split at h
            · cases h
            · cases h
            · cases h
            · rename_i n hcell
              split at h
              · cases h
              · rename_i hseen
                cases h
                exact .inr ⟨s, below, look, more, k, r, u, lower, n, rfl, rfl, hact, hr, hdrop,
                  hcell, hseen, rfl⟩
  · rintro (⟨s, below, look, more, n, rfl, rfl, hact, rfl⟩ |
      ⟨s, below, look, more, k, r, u, lower, n, rfl, rfl, hact, hr, hdrop, hcell, hseen, rfl⟩)
    · simp [step, hact]
    · simp only at hdrop hseen
      simp [step, hact, hr, reduceStep, hdrop, hcell, hseen]

/-- A step accepts on an accept action, with the rules reduced, in order. -/
theorem step_eq_accepted_iff {c : Config} {R : List Nat} : t.step rules c = .accepted R ↔
    ∃ s below look more, c.stack = s :: below ∧ c.rest = look :: more ∧
      t.action s look = .ok (some .accept) ∧ R = c.reduced.reverse := by
  obtain ⟨stack, rest, taken, reduced, seen⟩ := c
  constructor
  · intro h
    match stack, rest, h with
    | [], _, h => cases h
    | _ :: _, [], h => cases h
    | s :: below, look :: more, h =>
      simp only [step] at h
      split at h
      · cases h
      · split at h <;> cases h
      · cases h
      · rename_i hact
        cases h
        exact ⟨s, below, look, more, rfl, rfl, hact, rfl⟩
      · split at h
        · cases h
        · simp only [reduceStep] at h
          split at h
          · cases h
          · split at h
            · cases h
            · cases h
            · cases h
            · split at h <;> cases h
  · rintro ⟨s, below, look, more, rfl, rfl, hact, rfl⟩
    simp [step, hact]

/-- Whether a step goes on, to which stack and tokens, or accepts, depends only on the stack, the
tokens and the stacks seen. -/
theorem step_congr {c d : Config} (hstack : c.stack = d.stack) (hrest : c.rest = d.rest)
    (hseen : c.seen = d.seen) :
    (∀ c', t.step rules c = .next c' →
      ∃ d', t.step rules d = .next d' ∧ d'.stack = c'.stack ∧ d'.rest = c'.rest) ∧
    (∀ R, t.step rules c = .accepted R → ∃ R', t.step rules d = .accepted R') := by
  constructor
  · intro c' h
    rcases step_eq_next_iff.1 h with
      ⟨s, below, look, more, n, hs, hr, hact, rfl⟩ |
      ⟨s, below, look, more, k, r, u, lower, n, hs, hr, hact, hk, hdrop, hcell, hnew, rfl⟩
    · refine ⟨_, step_eq_next_iff.2 (.inl ⟨s, below, look, more, n, hstack ▸ hs, hrest ▸ hr, hact,
        rfl⟩), ?_, rfl⟩
      simp [hstack]
    · exact ⟨_, step_eq_next_iff.2 (.inr ⟨s, below, look, more, k, r, u, lower, n, hstack ▸ hs,
        hrest ▸ hr, hact, hk, hstack ▸ hdrop, hcell, hseen ▸ hnew, rfl⟩), rfl, hrest.symm⟩
  · intro R h
    obtain ⟨s, below, look, more, hs, hr, hact, -⟩ := step_eq_accepted_iff.1 h
    exact ⟨_, step_eq_accepted_iff.2 ⟨s, below, look, more, hstack ▸ hs, hrest ▸ hr, hact, rfl⟩⟩

theorem step_of_step_clean {c c' : Config} (h : t.step rules { c with seen := [] } = .next c') :
    (c'.rest ≠ c.rest ∧ c'.seen = [] ∧ t.step rules c = .next c') ∨
    (c'.rest = c.rest ∧
      (c'.stack ∈ c.seen ∨ t.step rules c = .next { c' with seen := c'.stack :: c.seen })) := by
  rcases step_eq_next_iff.1 h with
    ⟨s, below, look, more, n, hs, hr, hact, rfl⟩ |
    ⟨s, below, look, more, k, r, u, lower, n, hs, hr, hact, hk, hdrop, hcell, -, rfl⟩
  · refine .inl ⟨?_, rfl, step_eq_next_iff.2 (.inl ⟨s, below, look, more, n, hs, hr, hact, rfl⟩)⟩
    simp only at hr ⊢
    rw [hr]
    exact List.ne_cons_self
  · refine .inr ⟨rfl, ?_⟩
    by_cases hmem : n :: u :: lower ∈ c.seen
    · exact .inl hmem
    · exact .inr (step_eq_next_iff.2 (.inr ⟨s, below, look, more, k, r, u, lower, n, hs, hr, hact,
        hk, hdrop, hcell, hmem, rfl⟩))

theorem step_clean_eq_accepted {c : Config} {R : List Nat}
    (h : t.step rules { c with seen := [] } = .accepted R) : t.step rules c = .accepted R := by
  obtain ⟨s, below, look, more, hs, hr, hact, hR⟩ := step_eq_accepted_iff.1 h
  exact step_eq_accepted_iff.2 ⟨s, below, look, more, hs, hr, hact, hR⟩

/-! ## Steps that ignore the stacks seen -/

/-- `t.Runs rules c n c'`: from `c` the table takes `n` steps to `c'`, each as if no stack had
been seen. -/
inductive Runs (t : Table) (rules : List Rule) : Config → Nat → Config → Prop
  | refl (c : Config) : t.Runs rules c 0 c
  | step {c c' c'' : Config} {n : Nat} : t.step rules { c with seen := [] } = .next c' →
      t.Runs rules c' n c'' → t.Runs rules c (n + 1) c''

/-- `t.Accepts rules c n R`: taking steps as if no stack had been seen, the table goes `n` steps
from `c` and then accepts with the rules `R`. -/
def Accepts (t : Table) (rules : List Rule) (c : Config) (n : Nat) (R : List Nat) : Prop :=
  ∃ c', t.Runs rules c n c' ∧ t.step rules { c' with seen := [] } = .accepted R

theorem Runs.trans {c c' c'' : Config} {n m : Nat} (h : t.Runs rules c n c')
    (h' : t.Runs rules c' m c'') : t.Runs rules c (n + m) c'' := by
  induction h with
  | refl => simpa using h'
  | step hstep _ ih =>
    rw [Nat.add_right_comm]
    exact .step hstep (ih h')

theorem accepts_seen {c : Config} {n : Nat} {R : List Nat} (seen : List (List Nat)) :
    t.Accepts rules { c with seen := seen } n R ↔ t.Accepts rules c n R := by
  -- both configurations take their first step, or accept, as `c` without the stacks seen
  have key : ∀ d : Config, t.Accepts rules d n R ↔ t.Accepts rules { d with seen := [] } n R := by
    intro d
    constructor
    · rintro ⟨d', hruns, hacc⟩
      cases hruns with
      | refl => exact ⟨_, .refl _, hacc⟩
      | step hstep hruns => exact ⟨d', .step hstep hruns, hacc⟩
    · rintro ⟨d', hruns, hacc⟩
      cases hruns with
      | refl => exact ⟨_, .refl _, hacc⟩
      | step hstep hruns => exact ⟨d', .step hstep hruns, hacc⟩
  rw [key, key c]

/-- Two configurations with the same stack and tokens accept after as many steps. -/
theorem Accepts.steps_eq {c d : Config} {n m : Nat} {R R' : List Nat}
    (hc : t.Accepts rules c n R) (hd : t.Accepts rules d m R') (hstack : c.stack = d.stack)
    (hrest : c.rest = d.rest) : n = m := by
  obtain ⟨c₁, hruns, hacc⟩ := hc
  have congr : ∀ {c d : Config}, c.stack = d.stack → c.rest = d.rest →
      (∀ c', t.step rules { c with seen := [] } = .next c' → ∃ d',
        t.step rules { d with seen := [] } = .next d' ∧ d'.stack = c'.stack ∧
          d'.rest = c'.rest) ∧
      (∀ R, t.step rules { c with seen := [] } = .accepted R →
        ∃ R', t.step rules { d with seen := [] } = .accepted R') :=
    fun hstack hrest => step_congr hstack hrest rfl
  induction hruns generalizing d m with
  | refl c =>
    obtain ⟨d₁, hdruns, -⟩ := hd
    cases hdruns with
    | refl => rfl
    | step hdstep _ =>
      obtain ⟨R'', hd'⟩ := (congr hstack hrest).2 R hacc
      rw [hdstep] at hd'
      cases hd'
  | @step c c' _ n hstep _ ih =>
    obtain ⟨d₁, hdruns, hdacc⟩ := hd
    obtain ⟨d', hd', hstack', hrest'⟩ := (congr hstack hrest).1 c' hstep
    cases hdruns with
    | refl =>
      rw [hd'] at hdacc
      cases hdacc
    | step hdstep hdruns =>
      rw [hd'] at hdstep
      cases hdstep
      rw [ih ⟨d₁, hdruns, hdacc⟩ hstack'.symm hrest'.symm hacc]

/-- Every stack that `c` has seen is the stack of a configuration with the tokens of `c` that
accepts, ignoring the stacks seen, after `n` steps or more. -/
def SeenEarlier (t : Table) (rules : List Rule) (c : Config) (n : Nat) : Prop :=
  ∀ σ ∈ c.seen, ∃ d m R, d.stack = σ ∧ d.rest = c.rest ∧ t.Accepts rules d m R ∧ n ≤ m

/-- A configuration that accepts after `n` steps that ignore the stacks seen, and whose stacks
seen belong to earlier configurations, is accepted by the recognizer itself with more than `n`
steps to take. -/
theorem run_eq_ok_of_accepts {c : Config} {n : Nat} {R : List Nat} (h : t.Accepts rules c n R)
    (hseen : t.SeenEarlier rules c n) {fuel : Nat} (hfuel : n < fuel) :
    t.run rules fuel c = .ok R := by
  obtain ⟨fuel, rfl⟩ := Nat.exists_eq_succ_of_ne_zero (Nat.ne_zero_of_lt hfuel)
  induction n generalizing c fuel with
  | zero =>
    obtain ⟨c₁, hruns, hacc⟩ := h
    cases hruns
    simp [run, step_clean_eq_accepted hacc]
  | succ n ih =>
    obtain ⟨c₁, hruns, hacc⟩ := h
    cases hruns with
    | @step _ c' _ _ hstep hruns =>
    have hc' : t.Accepts rules c' n R := ⟨c₁, hruns, hacc⟩
    obtain ⟨fuel, rfl⟩ := Nat.exists_eq_succ_of_ne_zero (by omega : fuel ≠ 0)
    rcases step_of_step_clean hstep with ⟨-, hnil, hnext⟩ | ⟨hrest, hcycle | hnext⟩
    · rw [run, hnext]
      exact ih hc' (by simp [SeenEarlier, hnil]) fuel (by omega)
    · -- a stack seen would accept after no fewer steps than `c`, but it is the stack of `c'`
      obtain ⟨d, m, R', hd, hdrest, hdacc, hnm⟩ := hseen _ hcycle
      have := hc'.steps_eq hdacc hd.symm (hrest.trans hdrest.symm)
      omega
    · rw [run, hnext]
      refine ih ((accepts_seen _).2 hc') ?_ fuel (by omega)
      intro σ hσ
      rcases List.mem_cons.1 hσ with rfl | hσ
      · exact ⟨c', n, R, rfl, rfl, hc', Nat.le_refl n⟩
      · obtain ⟨d, m, R', hd, hdrest, hdacc, hnm⟩ := hseen σ hσ
        exact ⟨d, m, R', hd, hdrest.trans hrest.symm, hdacc, by omega⟩

end Table

end SimpleLR
