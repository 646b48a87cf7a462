import SimpleLR.Proofs.StepBudget
/-!
# Runs that never check for a stack seen

`Table.trace` runs the recognizer without its check for stacks seen: each step is taken as if no
stack had been seen since the last shift. What such a run shows is decided by the stack, the
tokens left and the tokens taken (`outline_trace`), so a run that comes back to a stack with the
same tokens goes round forever between the two visits, on stacks below a bound
(`TraceRepeats.cycles`).

The recognizer takes the steps of that run, but for the stacks seen (`Follows.step`): it closes a
cycle exactly when it comes back to a stack that the run reached since the last shift, and
otherwise it ends as the run ends (`run_of_follows`).
-/

namespace SimpleLR

/-- What a step shows of a run: the stack, the tokens left and the tokens taken of the
configuration it goes on to, or that it accepts, or the error it fails with. -/
def Step.outline : Step → Except (Option RunError) (List Nat × List Symbol × Nat)
  | .next c => .ok (c.stack, c.rest, c.taken)
  | .accepted _ => .error none
  | .failed e => .error (some e)

/-- The result that a step ends a run with; none if the run goes on. -/
def Step.result? : Step → Option (Except RunError (List Nat))
  | .next _ => none
  | .accepted R => some (.ok R)
  | .failed e => some (.error e)

namespace Table

variable {t : Table} {rules : List Rule}

/-- The run from `c` that never checks for a stack seen, cut after `n` steps: the configuration
it goes on from, or how it ended before. -/
def trace (t : Table) (rules : List Rule) : Nat → Config → Step
  | 0, c => .next c
  | n + 1, c =>
    match t.step rules { c with seen := [] } with
    | .next c' => t.trace rules n c'
    | s => s

theorem trace_add (m n : Nat) (c : Config) :
    t.trace rules (m + n) c =
      match t.trace rules m c with
      | .next d => t.trace rules n d
      | s => s := by
  induction m generalizing c with
  | zero => rw [Nat.zero_add]; rfl
  | succ m ih =>
    rw [Nat.add_right_comm, trace, trace]
    cases t.step rules { c with seen := [] } with
    | next c' => exact ih c'
    | accepted R => rfl
    | failed e => rfl

theorem trace_succ (n : Nat) (c : Config) :
    t.trace rules (n + 1) c =
      match t.trace rules n c with
      | .next d => t.step rules { d with seen := [] }
      | s => s := by
  rw [trace_add]
  cases t.trace rules n c with
  | next d =>
    simp only [trace]
    cases t.step rules { d with seen := [] } <;> rfl
  | accepted R => rfl
  | failed e => rfl

/-! ## The step that ignores the stacks seen -/

theorem outline_step_clean {c d : Config} (hstack : c.stack = d.stack) (hrest : c.rest = d.rest)
    (htaken : c.taken = d.taken) :
    (t.step rules { c with seen := [] }).outline = (t.step rules { d with seen := [] }).outline := by
  obtain ⟨stack, rest, taken, reduced, seen⟩ := c
  obtain ⟨stack', rest', taken', reduced', seen'⟩ := d
  simp only at hstack hrest htaken
  subst hstack hrest htaken
  match stack, rest with
  | [], _ => rfl
  | _ :: _, [] => rfl
  | s :: below, look :: more =>
    simp only [step]
    cases t.action s look with
    | error e => rfl
    | ok a =>
      rcases a with _ | ⟨n | k | _⟩
      · cases t.expected s <;> rfl
      · rfl
      · cases hk : rules[k]? with
        | none => simp only [hk]
        | some r =>
          simp only [hk, reduceStep]
          cases hd : List.drop r.body.length (s :: below) with
          | nil => rfl
          | cons u lower =>
            cases hc : t.cell u r.lhs with
            | error e => simp only [hc]
            | ok x => cases x <;> simp [hc, Step.outline]
      · rfl

theorem step_eq_step_clean {c : Config} (h : ∀ d, t.step rules { c with seen := [] } ≠ .next d) :
    t.step rules c = t.step rules { c with seen := [] } ∧
      ∀ k text u, t.step rules { c with seen := [] } ≠ .failed (.reduceCycle k text u) := by
  obtain ⟨stack, rest, taken, reduced, seen⟩ := c
  match stack, rest with
  | [], _ => simp [step]
  | _ :: _, [] => simp [step]
  | s :: below, look :: more =>
    simp only [step] at h ⊢
    cases hact : t.action s look with
    | error e => simp
    | ok a =>
      rcases a with _ | ⟨n | k | _⟩
      · cases t.expected s <;> simp
      · simp [hact] at h
      · cases hk : rules[k]? with
        | none => simp [hk]
        | some r =>
          simp only [hk, reduceStep] at h ⊢
          cases hd : List.drop r.body.length (s :: below) with
          | nil =>
            refine ⟨rfl, fun k text u => ?_⟩
            dsimp only
            split <;> simp
          | cons u lower =>
            cases hc : t.cell u r.lhs with
            | error e => simp [hc]
            | ok x =>
              cases x with
              | blank => simp [hc]
              | action a => simp [hc]
              | goto n => simp [hact, hk, hd, hc] at h
      · simp

theorem step_clean_of_rest_eq {c c' : Config} (h : t.step rules { c with seen := [] } = .next c')
    (hrest : c'.rest = c.rest) :
    c'.taken = c.taken ∧
      (c'.stack ∈ c.seen → ∃ k text u, t.step rules c = .failed (.reduceCycle k text u)) := by
  rcases step_eq_next_iff.1 h with
    ⟨s, below, look, more, n, -, hr, -, rfl⟩ |
    ⟨s, below, look, more, k, r, u, lower, n, hs, hr, hact, hk, hdrop, hcell, -, rfl⟩
  · simp only at hr hrest
    rw [hr] at hrest
    exact absurd hrest List.ne_cons_self
  · refine ⟨rfl, fun hmem => ⟨k, r.render, u, ?_⟩⟩
    obtain ⟨stack, rest, taken, reduced, seen⟩ := c
    simp only at hs hr hdrop hmem
    subst hs hr
    simp [step, hact, hk, reduceStep, hdrop, hcell, hmem]

theorem rest_suffix_of_step {c c' : Config} (h : t.step rules c = .next c') : c'.rest <:+ c.rest := by
  rcases step_eq_next_iff.1 h with
    ⟨s, below, look, more, n, -, hr, -, rfl⟩ | ⟨s, below, look, more, k, r, u, lower, n, -, -, -, -,
      -, -, -, rfl⟩
  · simp only [hr]
    exact List.suffix_cons look more
  · exact List.suffix_refl _

/-! ## What the trace does -/

theorem trace_add_of_ne_next {m : Nat} {c : Config} (h : ∀ d, t.trace rules m c ≠ .next d)
    (n : Nat) : t.trace rules (m + n) c = t.trace rules m c := by
  rw [trace_add]
  cases hm : t.trace rules m c with
  | next d => exact absurd hm (h d)
  | accepted R => rfl
  | failed e => rfl

theorem exists_trace_of_le {m n : Nat} {c d : Config} (h : t.trace rules n c = .next d)
    (hmn : m ≤ n) : ∃ e, t.trace rules m c = .next e := by
  obtain ⟨k, rfl⟩ := Nat.exists_eq_add_of_le hmn
  by_contra hne
  have hstop : ∀ e, t.trace rules m c ≠ .next e := fun e he => hne ⟨e, he⟩
  rw [trace_add_of_ne_next hstop] at h
  exact hstop d h

theorem result_eq_of_trace {m n : Nat} {c : Config} {r r' : Except RunError (List Nat)}
    (hm : (t.trace rules m c).result? = some r) (hn : (t.trace rules n c).result? = some r') :
    r = r' := by
  -- a step with a result does not go on, so the later one repeats the earlier
  have ended : ∀ {k r}, (t.trace rules k c).result? = some r → ∀ d, t.trace rules k c ≠ .next d := by
    intro k r hk d hd
    rw [hd] at hk
    cases hk
  rcases Nat.le_total m n with hle | hle
  · obtain ⟨k, rfl⟩ := Nat.exists_eq_add_of_le hle
    rw [trace_add_of_ne_next (ended hm), hm] at hn
    exact Option.some.inj hn
  · obtain ⟨k, rfl⟩ := Nat.exists_eq_add_of_le hle
    rw [trace_add_of_ne_next (ended hn), hn] at hm
    exact (Option.some.inj hm).symm

theorem trace_ne_reduceCycle (n : Nat) (c : Config) (k : Nat) (text : String) (u : Nat) :
    (t.trace rules n c).result? ≠ some (.error (.reduceCycle k text u)) := by
  induction n generalizing c with
  | zero => simp [trace, Step.result?]
  | succ n ih =>
    rw [trace]
    cases hc : t.step rules { c with seen := [] } with
    | next c' => exact ih c'
    | accepted R => simp [Step.result?]
    | failed e =>
      have hstop : ∀ d, t.step rules { c with seen := [] } ≠ .next d := by simp [hc]
      have hne := (step_eq_step_clean hstop).2 k text u
      rw [hc] at hne
      simpa [Step.result?] using hne

theorem rest_suffix_of_trace {m n : Nat} {c d e : Config} (hd : t.trace rules m c = .next d)
    (he : t.trace rules (m + n) c = .next e) : e.rest <:+ d.rest := by
  rw [trace_add, hd] at he
  dsimp only at he
  clear hd
  induction n generalizing d with
  | zero =>
    cases he
    exact List.suffix_refl _
  | succ n ih =>
    rw [trace] at he
    cases hc : t.step rules { d with seen := [] } with
    | next d' =>
      rw [hc] at he
      dsimp only at he
      have hsuffix := rest_suffix_of_step hc
      exact (ih he).trans hsuffix
    | accepted R => rw [hc] at he; cases he
    | failed e => rw [hc] at he; cases he

/-- Runs from two configurations with the same stack, tokens left and tokens taken show the same
at every step. -/
theorem outline_trace {c d : Config} (hstack : c.stack = d.stack) (hrest : c.rest = d.rest)
    (htaken : c.taken = d.taken) (n : Nat) :
    (t.trace rules n c).outline = (t.trace rules n d).outline := by
  induction n generalizing c d with
  | zero => simp [trace, Step.outline, hstack, hrest, htaken]
  | succ n ih =>
    have hstep : (t.step rules { c with seen := [] }).outline =
        (t.step rules { d with seen := [] }).outline := outline_step_clean hstack hrest htaken
    rw [trace, trace]
    cases hc : t.step rules { c with seen := [] } <;>
      cases hd : t.step rules { d with seen := [] } <;>
      simp only [hc, hd, Step.outline, Except.ok.injEq, Except.error.injEq, Prod.mk.injEq,
        reduceCtorEq] at hstep ⊢
    · exact ih hstep.1 hstep.2.1 hstep.2.2
    · rw [hstep]

theorem exists_stack_bound (c : Config) (i : Nat) :
    ∀ p, ∃ B, ∀ r < p, ∀ d, t.trace rules (i + r) c = .next d → d.stack.length ≤ B
  | 0 => ⟨0, fun r hr => absurd hr (Nat.not_lt_zero r)⟩
  | p + 1 => by
    obtain ⟨B, hB⟩ := exists_stack_bound c i p
    by_cases hlast : ∃ d₀, t.trace rules (i + p) c = .next d₀
    · obtain ⟨d₀, hd₀⟩ := hlast
      refine ⟨max B d₀.stack.length, fun r hr d hd => ?_⟩
      rcases Nat.lt_succ_iff_lt_or_eq.1 hr with hr | rfl
      · exact (hB r hr d hd).trans (Nat.le_max_left _ _)
      · rw [hd₀] at hd
        cases hd
        exact Nat.le_max_right _ _
    · refine ⟨B, fun r hr d hd => ?_⟩
      rcases Nat.lt_succ_iff_lt_or_eq.1 hr with hr | rfl
      · exact hB r hr d hd
      · exact absurd ⟨d, hd⟩ hlast

theorem eq_next_of_outline_eq {s : Step} {d : Config} (h : s.outline = (Step.next d).outline) :
    ∃ d', s = .next d' ∧ d'.stack = d.stack ∧ d'.rest = d.rest ∧ d'.taken = d.taken := by
  cases s with
  | next d' =>
    simp only [Step.outline, Except.ok.injEq, Prod.mk.injEq] at h
    exact ⟨d', rfl, h⟩
  | accepted R => cases h
  | failed e => cases h

/-! ## How the trace ends -/

/-- The run that never checks for a stack seen ends with `r`. -/
def TraceEnds (t : Table) (rules : List Rule) (c : Config) (r : Except RunError (List Nat)) :
    Prop :=
  ∃ n, (t.trace rules n c).result? = some r

/-- From some step on, the run that never checks for a stack seen goes on forever by reductions
alone, with the tokens left fixed and its stack below a bound. -/
def TraceCycles (t : Table) (rules : List Rule) (c : Config) : Prop :=
  ∃ N more B, ∀ n, N ≤ n →
    ∃ d, t.trace rules n c = .next d ∧ d.rest = more ∧ d.stack.length ≤ B

/-- From some step on, the run that never checks for a stack seen goes on forever by reductions
alone, with the tokens left fixed, and its stack rises above every bound for good. -/
def TraceGrows (t : Table) (rules : List Rule) (c : Config) : Prop :=
  ∃ N more, (∀ n, N ≤ n → ∃ d, t.trace rules n c = .next d ∧ d.rest = more) ∧
    ∀ B, ∃ M, ∀ n, M ≤ n → ∃ d, t.trace rules n c = .next d ∧ B < d.stack.length

/-- The run that never checks for a stack seen comes back to a stack, with the same tokens left
and taken. -/
def TraceRepeats (t : Table) (rules : List Rule) (c : Config) : Prop :=
  ∃ i j d e, i < j ∧ t.trace rules i c = .next d ∧ t.trace rules j c = .next e ∧
    d.stack = e.stack ∧ d.rest = e.rest ∧ d.taken = e.taken

theorem TraceEnds.not_forever {c : Config} {r : Except RunError (List Nat)}
    (h : t.TraceEnds rules c r) (N : Nat) : ¬∀ n, N ≤ n → ∃ d, t.trace rules n c = .next d := by
  obtain ⟨m, hm⟩ := h
  intro hgo
  have hstop : ∀ d, t.trace rules m c ≠ .next d := by
    intro d hd
    rw [hd] at hm
    cases hm
  obtain ⟨d, hd⟩ := hgo (m + N) (Nat.le_add_left N m)
  rw [trace_add_of_ne_next hstop] at hd
  exact hstop d hd

theorem TraceCycles.not_grows {c : Config} (h : t.TraceCycles rules c) : ¬t.TraceGrows rules c := by
  obtain ⟨N, more, B, hcyc⟩ := h
  rintro ⟨-, -, -, hgrow⟩
  obtain ⟨M, hM⟩ := hgrow B
  obtain ⟨d, hd, -, hle⟩ := hcyc (N + M) (Nat.le_add_right N M)
  obtain ⟨d', hd', hlt⟩ := hM (N + M) (Nat.le_add_left M N)
  rw [hd] at hd'
  cases hd'
  omega

theorem TraceCycles.not_ends {c : Config} (h : t.TraceCycles rules c)
    (r : Except RunError (List Nat)) : ¬t.TraceEnds rules c r := by
  obtain ⟨N, more, B, hcyc⟩ := h
  intro hend
  apply hend.not_forever N
  intro n hn
  obtain ⟨d, hd, -⟩ := hcyc n hn
  exact ⟨d, hd⟩

theorem TraceGrows.not_ends {c : Config} (h : t.TraceGrows rules c)
    (r : Except RunError (List Nat)) : ¬t.TraceEnds rules c r := by
  obtain ⟨N, more, hgo, -⟩ := h
  intro hend
  apply hend.not_forever N
  intro n hn
  obtain ⟨d, hd, -⟩ := hgo n hn
  exact ⟨d, hd⟩

theorem rest_eq_of_between {c d e e' : Config} {i r s : Nat} (he : t.trace rules i c = .next e)
    (hd : t.trace rules (i + r) c = .next d) (he' : t.trace rules (i + r + s) c = .next e')
    (hrest : e.rest = e'.rest) : d.rest = e.rest := by
  have h₁ : d.rest <:+ e.rest := rest_suffix_of_trace he hd
  have h₂ : e.rest <:+ d.rest := hrest ▸ rest_suffix_of_trace hd he'
  exact h₁.eq_of_length (Nat.le_antisymm h₁.length_le h₂.length_le)

theorem outline_periodic {c e e' : Config} {i p : Nat} (he : t.trace rules i c = .next e)
    (he' : t.trace rules (i + p) c = .next e') (hstack : e.stack = e'.stack)
    (hrest : e.rest = e'.rest) (htaken : e.taken = e'.taken) (q r : Nat) :
    (t.trace rules (i + r + q * p) c).outline = (t.trace rules (i + r) c).outline := by
  have hshift : ∀ n, (t.trace rules (i + n) c).outline = (t.trace rules (i + p + n) c).outline := by
    intro n
    rw [trace_add, he, trace_add (i + p), he']
    exact outline_trace hstack hrest htaken n
  induction q generalizing r with
  | zero => simp
  | succ q ih =>
    rw [show i + r + (q + 1) * p = i + p + (r + q * p) by ring, ← hshift, ← Nat.add_assoc, ih]

/-- A run that comes back to a stack with the same tokens goes round forever between the two
steps: it never ends, and from the first of them on its stacks are those of the steps between. -/
theorem TraceRepeats.cycles {c : Config} (h : t.TraceRepeats rules c) :
    t.TraceCycles rules c ∧ ∀ n, ∃ d, t.trace rules n c = .next d := by
  obtain ⟨i, j, e, e', hij, he, he', hstack, hrest, htaken⟩ := h
  obtain ⟨p, rfl⟩ := Nat.exists_eq_add_of_lt hij
  rw [Nat.add_assoc] at he'
  have hwithin : ∀ r ≤ p + 1, ∃ d, t.trace rules (i + r) c = .next d ∧ d.rest = e.rest := by
    intro r hr
    obtain ⟨d, hd⟩ := exists_trace_of_le he' (Nat.add_le_add_left hr i)
    have hlater : t.trace rules (i + r + (p + 1 - r)) c = .next e' := by
      rwa [show i + r + (p + 1 - r) = i + (p + 1) by omega]
    exact ⟨d, hd, rest_eq_of_between he hd hlater hrest⟩
  obtain ⟨B, hB⟩ := exists_stack_bound c i (p + 1)
  have hlate : ∀ n, i ≤ n →
      ∃ d, t.trace rules n c = .next d ∧ d.rest = e.rest ∧ d.stack.length ≤ B := by
    intro n hn
    have hr : (n - i) % (p + 1) < p + 1 := Nat.mod_lt _ (Nat.succ_pos p)
    obtain ⟨d, hd, hdrest⟩ := hwithin _ hr.le
    have heq := outline_periodic he he' hstack hrest htaken ((n - i) / (p + 1)) ((n - i) % (p + 1))
    rw [show i + (n - i) % (p + 1) + (n - i) / (p + 1) * (p + 1) = n by
      have := Nat.mod_add_div (n - i) (p + 1)
      rw [Nat.mul_comm] at this
      omega, hd] at heq
    obtain ⟨d', hd', hstack', hrest', -⟩ := eq_next_of_outline_eq heq
    exact ⟨d', hd', hrest'.trans hdrest, hstack' ▸ hB _ hr d hd⟩
  refine ⟨⟨i, e.rest, B, hlate⟩, fun n => ?_⟩
  rcases Nat.lt_or_ge n i with hn | hn
  · exact exists_trace_of_le he hn.le
  · obtain ⟨d, hd, -⟩ := hlate n hn
    exact ⟨d, hd⟩

/-! ## The recognizer follows the trace -/

/-- Configuration `c` of the recognizer stands where the trace from `c₀` stands after `i` steps,
but for the stacks seen; and each stack it has seen is the stack of the trace at a step up to
`i`, with the tokens of `c` left and taken. -/
structure Follows (t : Table) (rules : List Rule) (c₀ : Config) (i : Nat) (c : Config) : Prop where
  here : ∃ d, t.trace rules i c₀ = .next d ∧ { d with seen := [] } = { c with seen := [] }
  seen : ∀ σ ∈ c.seen, ∃ j ≤ i, ∃ d, t.trace rules j c₀ = .next d ∧ d.stack = σ ∧
    d.rest = c.rest ∧ d.taken = c.taken

theorem Follows.start {c₀ : Config} (h : c₀.seen = []) : t.Follows rules c₀ 0 c₀ where
  here := ⟨c₀, rfl, rfl⟩
  seen := by simp [h]

/-- One step of the recognizer from a configuration that follows the trace: it goes on to one
that follows the trace a step further, or it ends as the trace ends at that step, or it closes a
cycle where the trace comes back to a stack. -/
theorem Follows.step {c₀ : Config} {i : Nat} {c : Config} (hf : t.Follows rules c₀ i c) :
    (∀ c', t.step rules c = .next c' → t.Follows rules c₀ (i + 1) c') ∧
      (∀ R, t.step rules c = .accepted R → t.trace rules (i + 1) c₀ = .accepted R) ∧
      ∀ e, t.step rules c = .failed e → t.trace rules (i + 1) c₀ = .failed e ∨
        (∃ k text u, e = .reduceCycle k text u) ∧ t.TraceRepeats rules c₀ := by
  obtain ⟨d, hd, hdc⟩ := hf.here
  -- the trace takes the step that `c` takes when it ignores the stacks seen
  have hnext : t.trace rules (i + 1) c₀ = t.step rules { c with seen := [] } := by
    rw [trace_succ, hd]
    dsimp only
    rw [hdc]
  cases hc : t.step rules { c with seen := [] } with
  | next c' =>
    rcases step_of_step_clean hc with ⟨-, hnil, hstep⟩ | ⟨hrest, hmem | hstep⟩
    · refine ⟨?_, by simp [hstep], by simp [hstep]⟩
      rintro _ h
      rw [hstep] at h
      cases h
      exact ⟨⟨c', hnext.trans hc, rfl⟩, by simp [hnil]⟩
    · -- a reduction to a stack seen closes a cycle that the trace goes round
      obtain ⟨htaken, hcycle⟩ := step_clean_of_rest_eq hc hrest
      obtain ⟨k, text, u, hstep⟩ := hcycle hmem
      refine ⟨by simp [hstep], by simp [hstep], ?_⟩
      rintro _ h
      rw [hstep] at h
      cases h
      obtain ⟨j, hj, e, he, hσ, herest, hetaken⟩ := hf.seen _ hmem
      exact .inr ⟨⟨k, text, u, rfl⟩, j, i + 1, e, c', Nat.lt_succ_of_le hj, he,
        hnext.trans hc, hσ, herest.trans hrest.symm, hetaken.trans htaken.symm⟩
    · obtain ⟨htaken, -⟩ := step_clean_of_rest_eq hc hrest
      refine ⟨?_, by simp [hstep], by simp [hstep]⟩
      rintro _ h
      rw [hstep] at h
      cases h
      refine ⟨⟨c', hnext.trans hc, rfl⟩, ?_⟩
      intro σ hσ
      rcases List.mem_cons.1 hσ with rfl | hσ
      · exact ⟨i + 1, Nat.le_refl _, c', hnext.trans hc, rfl, rfl, rfl⟩
      · obtain ⟨j, hj, e, he, hes, her, het⟩ := hf.seen σ hσ
        exact ⟨j, Nat.le_succ_of_le hj, e, he, hes, her.trans hrest.symm, het.trans htaken.symm⟩
  | accepted R =>
    have hstop : ∀ d, t.step rules { c with seen := [] } ≠ .next d := by simp [hc]
    rw [(step_eq_step_clean hstop).1, hc, hnext, hc]
    exact ⟨by simp, fun _ h => h, by simp⟩
  | failed e =>
    have hstop : ∀ d, t.step rules { c with seen := [] } ≠ .next d := by simp [hc]
    rw [(step_eq_step_clean hstop).1, hc, hnext, hc]
    exact ⟨by simp, by simp, fun _ h => .inl h⟩

/-- A run of the recognizer that follows the trace runs out of steps, ends as the trace ends, or
closes a cycle where the trace comes back to a stack. -/
theorem run_of_follows {c₀ : Config} : ∀ (fuel i : Nat) {c : Config}, t.Follows rules c₀ i c →
    t.run rules fuel c = .error .outOfSteps ∨ t.TraceEnds rules c₀ (t.run rules fuel c) ∨
      ((∃ k text u, t.run rules fuel c = .error (.reduceCycle k text u)) ∧
        t.TraceRepeats rules c₀)
  | 0, _, _, _ => .inl rfl
  | fuel + 1, i, c, hf => by
    obtain ⟨hgo, hacc, hfail⟩ := hf.step
    rw [run]
    cases hc : t.step rules c with
    | next c' => exact run_of_follows fuel (i + 1) (hgo c' hc)
    | accepted R => exact .inr (.inl ⟨i + 1, by rw [hacc R hc]; rfl⟩)
    | failed e =>
      rcases hfail e hc with htrace | ⟨⟨k, text, u, rfl⟩, hrep⟩
      · exact .inr (.inl ⟨i + 1, by rw [htrace]; rfl⟩)
      · exact .inr (.inr ⟨⟨k, text, u, rfl⟩, hrep⟩)

theorem traceGrows_of_outline {c d : Config} {m m' : Nat}
    (h : ∀ n, (t.trace rules (m + n) c).outline = (t.trace rules (m' + n) d).outline)
    (hd : t.TraceGrows rules d) : t.TraceGrows rules c := by
  obtain ⟨N, more, hgo, hgrow⟩ := hd
  have hat : ∀ n, ∀ d', t.trace rules (m' + n) d = .next d' →
      ∃ c', t.trace rules (m + n) c = .next c' ∧ c'.stack = d'.stack ∧ c'.rest = d'.rest := by
    intro n d' hd'
    have hn := h n
    rw [hd'] at hn
    obtain ⟨c', hc', hs, hr, -⟩ := eq_next_of_outline_eq hn
    exact ⟨c', hc', hs, hr⟩
  refine ⟨m + N, more, fun n hn => ?_, fun B => ?_⟩
  · obtain ⟨d', hd', hrest⟩ := hgo (m' + (n - m)) (by omega)
    obtain ⟨c', hc', -, hr⟩ := hat (n - m) d' hd'
    rw [show m + (n - m) = n by omega] at hc'
    exact ⟨c', hc', hr.trans hrest⟩
  · obtain ⟨M, hM⟩ := hgrow B
    refine ⟨m + M, fun n hn => ?_⟩
    obtain ⟨d', hd', hlt⟩ := hM (m' + (n - m)) (by omega)
    obtain ⟨c', hc', hs, -⟩ := hat (n - m) d' hd'
    rw [show m + (n - m) = n by omega] at hc'
    exact ⟨c', hc', hs ▸ hlt⟩

theorem Follows.traceGrows {c₀ : Config} {i : Nat} {c : Config} (hf : t.Follows rules c₀ i c)
    (hc : t.TraceGrows rules c) : t.TraceGrows rules c₀ := by
  obtain ⟨d, hd, hdc⟩ := hf.here
  have hsame := congrArg (fun x : Config => (x.stack, x.rest, x.taken)) hdc
  simp only [Prod.mk.injEq] at hsame
  have hshow : ∀ n, (t.trace rules (i + n) c₀).outline = (t.trace rules (0 + n) c).outline := by
    intro n
    rw [trace_add, hd, Nat.zero_add]
    exact outline_trace hsame.1 hsame.2.1 hsame.2.2 n
  exact traceGrows_of_outline hshow hc

end Table

end SimpleLR
