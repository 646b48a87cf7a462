import SimpleLR.Proofs.UncheckedRuns
/-!
# Cycles of reductions

The recognizer stops a run that reduces back to a stack seen since the last shift. The check is
sound and changes no run that ends, and the steps the recognizer gives suffice for every other
run (`recognize_cycle_check_sound`).

A reduction that pops fewer states than the top part `S` of a stack does not look below `S`
(`Table.Above`), so a chain of them is taken alike on every floor (`trace_of_climb`). Between two
shifts the stack is a top part `A` on a suffix of the stack after the shift, where from each
state of `A` alone reductions above it rebuild the states of `A` above it (`Table.Levels`). Once
`A` holds more states than the table has rows, a state repeats, the climb between the two copies
repeats on a floor that rises each round, and the run without the check grows forever
(`traceGrows_of_levels`). Until then, a segment reaches few stacks (`length_le_of_tops`), and
`cycleBudget` counts what a run can still reach; every step lowers it (`SegmentInv.step`), and
the recognizer gives more steps than it is at the start (`cycleBudget_start_lt`). So a run that
runs out of steps is one whose stack grows forever (`traceGrows_of_run`).
-/

namespace SimpleLR

namespace Table

variable {t : Table} {rules : List Rule}

/-! ## Reductions above a floor -/

/-- On the token `look`, the top states `S` of a stack reduce to `S'`: the reduction pops fewer
states than `S` holds, so it reads nothing below `S` and leaves it as it is. -/
def Above (t : Table) (rules : List Rule) (look : Symbol) (S S' : List Nat) : Prop :=
  ∃ s k r u n, S.head? = some s ∧ t.action s look = .ok (some (.reduce k)) ∧ rules[k]? = some r ∧
    (S.drop r.body.length).head? = some u ∧ t.cell u r.lhs = .ok (.goto n) ∧
    S' = n :: S.drop r.body.length

theorem step_clean_of_above {look : Symbol} {S S' : List Nat} (h : t.Above rules look S S')
    {c : Config} {F : List Nat} {more : List Symbol} (hstack : c.stack = S ++ F)
    (hrest : c.rest = look :: more) :
    ∃ c', t.step rules { c with seen := [] } = .next c' ∧ c'.stack = S' ++ F ∧
      c'.rest = c.rest ∧ c'.taken = c.taken := by
  obtain ⟨s, k, r, u, n, hs, hact, hk, hu, hcell, rfl⟩ := h
  obtain ⟨S₀, rfl⟩ := List.head?_eq_some_iff.1 hs
  obtain ⟨lower, hlower⟩ := List.head?_eq_some_iff.1 hu
  have hle : r.body.length ≤ (s :: S₀).length := by
    by_contra hgt
    rw [List.drop_eq_nil_of_le (by omega)] at hlower
    cases hlower
  have hdrop : (c.stack).drop r.body.length = u :: (lower ++ F) := by
    rw [hstack, List.drop_append_of_le_length hle, hlower, List.cons_append]
  refine ⟨_, step_eq_next_iff.2 (.inr ⟨s, S₀ ++ F, look, more, k, r, u, lower ++ F, n,
    by rw [hstack, List.cons_append], hrest, hact, hk, hdrop, hcell, List.not_mem_nil, rfl⟩),
    ?_, rfl, rfl⟩
  simp [hlower]

/-- Reductions above a floor, one after another, are the steps of every stack on that floor: the
run that never checks for a stack seen takes them with the floor untouched, the tokens as they
are, and the states above the floor never all popped. -/
theorem trace_of_climb {look : Symbol} {S S' : List Nat}
    (h : Relation.ReflTransGen (t.Above rules look) S S') (hS : S ≠ []) :
    ∃ ℓ, ∀ {c : Config} {F : List Nat} {more : List Symbol}, c.stack = S ++ F →
      c.rest = look :: more →
      (∀ m ≤ ℓ, ∃ d, t.trace rules m c = .next d ∧ d.rest = c.rest ∧ d.taken = c.taken ∧
        ∃ S₁, d.stack = S₁ ++ F ∧ S₁ ≠ []) ∧
      ∃ d, t.trace rules ℓ c = .next d ∧ d.stack = S' ++ F ∧ d.rest = c.rest ∧
        d.taken = c.taken := by
  induction h with
  | refl =>
    refine ⟨0, fun {c F more} hstack hrest => ⟨fun m hm => ?_, c, rfl, hstack, rfl, rfl⟩⟩
    obtain rfl : m = 0 := Nat.le_zero.1 hm
    exact ⟨c, rfl, rfl, rfl, S, hstack, hS⟩
  | @tail S₁ S₂ _ habove ih =>
    obtain ⟨ℓ, hℓ⟩ := ih
    refine ⟨ℓ + 1, fun {c F more} hstack hrest => ?_⟩
    obtain ⟨hmid, d, hd, hds, hdr, hdt⟩ := hℓ hstack hrest
    obtain ⟨d', hd', hd's, hd'r, hd't⟩ := step_clean_of_above habove hds (hdr.trans hrest)
    have hlast : t.trace rules (ℓ + 1) c = .next d' := by
      rw [trace_succ, hd]
      exact hd'
    refine ⟨fun m hm => ?_, d', hlast, hd's, hd'r.trans hdr, hd't.trans hdt⟩
    rcases Nat.lt_succ_iff_lt_or_eq.1 (Nat.lt_succ_of_le hm) with hm | rfl
    · exact hmid m (Nat.lt_succ_iff.1 hm)
    · obtain ⟨s, k, r, u, n, -, -, -, -, -, rfl⟩ := habove
      exact ⟨d', hlast, hd'r.trans hdr, hd't.trans hdt, _, hd's, List.cons_ne_nil _ _⟩

theorem traceGrows_of_climb {look : Symbol} {x : Nat} {M : List Nat}
    (h : Relation.ReflTransGen (t.Above rules look) [x] (x :: M)) (hM : M ≠ []) {c : Config}
    {F : List Nat} {more : List Symbol} (hstack : c.stack = x :: F) (hrest : c.rest = look :: more) :
    t.TraceGrows rules c := by
  obtain ⟨ℓ, hℓ⟩ := trace_of_climb h (List.cons_ne_nil x [])
  -- after `q` rounds the run stands on `x` again, above a floor of at least `q` more states
  have hround : ∀ q, ∃ d F', t.trace rules (q * ℓ) c = .next d ∧ d.stack = x :: F' ∧
      q ≤ F'.length ∧ d.rest = c.rest ∧ d.taken = c.taken := by
    intro q
    induction q with
    | zero => exact ⟨c, F, by rw [Nat.zero_mul]; rfl, hstack, Nat.zero_le _, rfl, rfl⟩
    | succ q ih =>
      obtain ⟨d, F', hd, hds, hq, hdr, hdt⟩ := ih
      obtain ⟨-, d', hd', hd's, hd'r, hd't⟩ :=
        hℓ (show d.stack = [x] ++ F' from hds) (hdr.trans hrest)
      refine ⟨d', M ++ F', ?_, by simpa using hd's, ?_, hd'r.trans hdr, hd't.trans hdt⟩
      · rw [Nat.succ_mul, trace_add, hd]
        exact hd'
      · have := List.length_pos_of_ne_nil hM
        simp only [List.length_append]
        omega
  have hℓpos : 0 < ℓ := by
    obtain ⟨-, d, hd, hds, -, -⟩ := hℓ hstack hrest
    refine Nat.pos_of_ne_zero fun h0 => hM ?_
    subst h0
    cases hd
    rw [hstack] at hds
    simpa using congrArg List.length hds
  have hstep : ∀ n, ∃ d, t.trace rules n c = .next d ∧ d.rest = c.rest ∧
      n / ℓ < d.stack.length := by
    intro n
    obtain ⟨d, F', hd, hds, hq, hdr, -⟩ := hround (n / ℓ)
    obtain ⟨hmid, -⟩ := hℓ (show d.stack = [x] ++ F' from hds) (hdr.trans hrest)
    obtain ⟨d', hd', hd'r, -, S₁, hS₁, hne⟩ := hmid (n % ℓ) (Nat.mod_lt _ hℓpos).le
    refine ⟨d', ?_, hd'r.trans hdr, ?_⟩
    · rw [← Nat.div_add_mod' n ℓ, trace_add, hd]
      exact hd'
    · have := List.length_pos_of_ne_nil hne
      rw [hS₁, List.length_append]
      omega
  refine ⟨0, c.rest, fun n _ => ?_, fun B => ⟨(B + 1) * ℓ, fun n hn => ?_⟩⟩
  · obtain ⟨d, hd, hdr, -⟩ := hstep n
    exact ⟨d, hd, hdr⟩
  · obtain ⟨d, hd, -, hlt⟩ := hstep n
    have : B + 1 ≤ n / ℓ := (Nat.le_div_iff_mul_le hℓpos).2 hn
    exact ⟨d, hd, by omega⟩

/-! ## Levels of a stack -/

/-- The states `A` on top of a stack were each put there by reductions above the state at any
depth below it: every state of `A` climbs, on the token `look`, to the part of `A` from a higher
state down to it. -/
def Levels (t : Table) (rules : List Rule) (look : Symbol) (A : List Nat) : Prop :=
  ∀ U V x W, A = U ++ V ++ x :: W → Relation.ReflTransGen (t.Above rules look) [x] (V ++ [x])

theorem levels_singleton (look : Symbol) (n : Nat) : t.Levels rules look [n] := by
  intro U V x W h
  have hU : U = [] := by
    rcases U with _ | ⟨a, U⟩
    · rfl
    · have := congrArg List.length h
      simp at this
  subst hU
  rcases V with _ | ⟨a, V⟩
  · exact Relation.ReflTransGen.refl
  · have := congrArg List.length h
    simp at this

theorem Levels.reduce {look : Symbol} {A L : List Nat} (hA : t.Levels rules look A) {s k : Nat}
    {r : Rule} {u n : Nat} {lower : List Nat} (hs : (A ++ L).head? = some s)
    (hact : t.action s look = .ok (some (.reduce k))) (hk : rules[k]? = some r)
    (hp : r.body.length < A.length) (hdrop : (A ++ L).drop r.body.length = u :: lower)
    (hcell : t.cell u r.lhs = .ok (.goto n)) :
    t.Levels rules look (n :: A.drop r.body.length) := by
  have habove : ∀ P Q, A = P ++ Q → r.body.length < P.length →
      t.Above rules look P (n :: P.drop r.body.length) := by
    intro P Q hPQ hP
    rw [hPQ, List.append_assoc] at hs hdrop
    rw [List.drop_append_of_le_length hP.le] at hdrop
    obtain ⟨a, P', rfl⟩ :=
      List.exists_cons_of_ne_nil (List.ne_nil_of_length_pos (by omega) : P ≠ [])
    obtain ⟨b, D, hD⟩ := List.exists_cons_of_ne_nil
      (List.ne_nil_of_length_pos (by rw [List.length_drop]; omega) :
        (a :: P').drop r.body.length ≠ [])
    rw [hD, List.cons_append] at hdrop
    refine ⟨s, k, r, u, n, by simpa using hs, hact, hk, ?_, hcell, rfl⟩
    rw [hD]
    simp only [List.head?_cons, Option.some.injEq]
    exact (List.cons.inj hdrop).1
  intro U V x W h
  rcases U with _ | ⟨a, U⟩
  · rcases V with _ | ⟨b, V⟩
    · obtain ⟨rfl, -⟩ := List.cons.inj h
      exact Relation.ReflTransGen.refl
    · simp only [List.nil_append, List.cons_append, List.cons.injEq] at h
      obtain ⟨rfl, hV⟩ := h
      have hsplit : A = A.take r.body.length ++ (V ++ x :: W) := by
        rw [← hV, List.take_append_drop]
      have hlow := hA [] (A.take r.body.length ++ V) x W (by simpa using hsplit)
      have htop := habove (A.take r.body.length ++ (V ++ [x])) W (by simpa using hsplit)
        (by simp; omega)
      have htake : (A.take r.body.length).length = r.body.length := by
        simp only [List.length_take]
        omega
      rw [List.drop_left' htake] at htop
      rw [List.append_assoc] at hlow
      simpa using hlow.tail htop
  · simp only [List.cons_append, List.append_assoc, List.cons.injEq] at h
    obtain ⟨rfl, hU⟩ := h
    exact hA (A.take r.body.length ++ U) V x W (by
      rw [List.append_assoc, List.append_assoc, ← hU, List.take_append_drop])

/-- More states on top than the table has rows repeat a state, and the run goes round the climb
between the two copies forever on a growing stack. -/
theorem traceGrows_of_levels {look : Symbol} {A : List Nat} (hA : t.Levels rules look A)
    {rows : Nat} (hlong : rows < A.length) (hlt : ∀ x ∈ A, x < rows) {c : Config}
    {L : List Nat} {more : List Symbol} (hstack : c.stack = A ++ L) (hrest : c.rest = look :: more) :
    t.TraceGrows rules c := by
  -- two of the states are equal
  have hdup : ¬A.Nodup := by
    intro hnodup
    have := (hnodup.subperm fun x hx => List.mem_range.2 (hlt x hx)).length_le
    simp at this
    omega
  obtain ⟨x, hxx⟩ := not_forall.1 (mt List.nodup_iff_sublist.2 hdup)
  obtain ⟨r₁, r₂, rfl, hx₁, hx₂⟩ := List.cons_sublist_iff.1 (not_not.1 hxx)
  obtain ⟨U, V₁, rfl⟩ := List.append_of_mem hx₁
  obtain ⟨V₂, W, rfl⟩ := List.append_of_mem (List.singleton_sublist.1 hx₂)
  -- the deeper copy climbs to the shallower one, and on up to the top
  have hround : Relation.ReflTransGen (t.Above rules look) [x] (x :: (V₁ ++ V₂ ++ [x])) :=
    hA U (x :: (V₁ ++ V₂)) x W (by simp)
  have hup : Relation.ReflTransGen (t.Above rules look) [x] (U ++ x :: (V₁ ++ V₂) ++ [x]) :=
    hA [] (U ++ x :: (V₁ ++ V₂)) x W (by simp)
  let c₀ : Config := { c with stack := x :: (W ++ L) }
  have hgrow : t.TraceGrows rules c₀ :=
    traceGrows_of_climb hround (by simp) (show c₀.stack = x :: (W ++ L) from rfl) hrest
  obtain ⟨ℓ, hℓ⟩ := trace_of_climb hup (List.cons_ne_nil x [])
  obtain ⟨-, d, hd, hds, hdr, hdt⟩ := hℓ (show c₀.stack = [x] ++ (W ++ L) from rfl) hrest
  have hshow : ∀ n, (t.trace rules (0 + n) c).outline = (t.trace rules (ℓ + n) c₀).outline := by
    intro n
    have hsame : c.stack = d.stack := by
      rw [hstack, hds]
      simp
    rw [trace_add ℓ, hd, Nat.zero_add]
    exact outline_trace hsame hdr.symm hdt.symm n
  exact traceGrows_of_outline hshow hgrow

end Table

namespace Grammar

variable {g : Grammar}

/-! ## What a run keeps between two shifts -/

theorem states_length_pos : 0 < g.automaton.states.length := by
  obtain ⟨st, hst, -⟩ := state_zero (g := g)
  exact (List.getElem?_eq_some_iff.1 hst).1

theorem lt_length_of_path {stack : List Nat} {syms : List Symbol}
    (h : g.automaton.Path stack syms) : ∀ x ∈ stack, x < g.automaton.states.length := by
  induction h with
  | start =>
    intro x hx
    obtain rfl := List.mem_singleton.1 hx
    exact states_length_pos
  | step _ ht ih =>
    intro x hx
    rcases List.mem_cons.1 hx with rfl | hx
    · obtain ⟨-, st, -, -, hst, -⟩ := goto_of_target? ht
      exact (List.getElem?_eq_some_iff.1 hst).1
    · exact ih x hx

theorem Viable.rest_length {w : List Symbol} {c : Config} {syms : List Symbol}
    (hv : Viable g w c syms) : c.rest.length + c.taken = (w.filter (· != endMarker)).length + 1 := by
  have := hv.taken_le
  rw [hv.rest_eq, List.length_append, List.length_drop, List.length_singleton]
  omega

/-- Distinct stacks, each at most `rows` states below `rows` on a suffix of `base`, number at most
`(|base| + 1) * (rows + 1) ^ rows`: the top part is a numeral of at most `rows` digits in base
`rows + 1`, each state `x` written as the digit `x + 1`. -/
theorem length_le_of_tops {seen : List (List Nat)} {base : List Nat} {rows : Nat}
    (hrows : 0 < rows) (hnodup : seen.Nodup)
    (h : ∀ σ ∈ seen, ∃ A j, σ = A ++ base.drop j ∧ A.length ≤ rows ∧ (∀ x ∈ A, x < rows) ∧
      j ≤ base.length) :
    seen.length ≤ (base.length + 1) * (rows + 1) ^ rows := by
  classical
  have hdigits : ∀ A : List Nat, (∀ x ∈ A, x < rows) →
      (Nat.digits (rows + 1) (Nat.ofDigits (rows + 1) (A.map (· + 1)))).map (· - 1) = A := by
    intro A hA
    rw [Nat.digits_ofDigits _ (by omega) _ (by simpa using fun x hx => hA x hx)
      (fun hne => by simp [List.getLast_map])]
    simp [List.map_map, Function.comp_def]
  have hsub : seen.toFinset ⊆ (Finset.range (base.length + 1) ×ˢ
      Finset.range ((rows + 1) ^ rows)).image
        fun p => (Nat.digits (rows + 1) p.2).map (· - 1) ++ base.drop p.1 := by
    intro σ hσ
    obtain ⟨A, j, rfl, hlen, hlt, hj⟩ := h σ (List.mem_toFinset.1 hσ)
    refine Finset.mem_image.2 ⟨(j, Nat.ofDigits (rows + 1) (A.map (· + 1))), ?_,
      by simp only [hdigits A hlt]⟩
    have hcode : Nat.ofDigits (rows + 1) (A.map (· + 1)) < (rows + 1) ^ rows :=
      calc Nat.ofDigits (rows + 1) (A.map (· + 1)) < (rows + 1) ^ (A.map (· + 1)).length :=
            Nat.ofDigits_lt_base_pow_length (by omega) (by simpa using fun x hx => hlt x hx)
        _ ≤ (rows + 1) ^ rows := Nat.pow_le_pow_right (by omega) (by simpa using hlen)
    simp only [Finset.mem_product, Finset.mem_range]
    exact ⟨by omega, hcode⟩
  calc seen.length = seen.toFinset.card := (List.toFinset_card_of_nodup hnodup).symm
    _ ≤ _ := Finset.card_le_card hsub
    _ ≤ (Finset.range (base.length + 1) ×ˢ Finset.range ((rows + 1) ^ rows)).card :=
      Finset.card_image_le
    _ = (base.length + 1) * (rows + 1) ^ rows := by simp

/-- What a run on the table of `g` and the input `w` keeps between two shifts, where `base` is
the stack after the last shift. The stack is a top part `A`, of at most as many states as the
table has rows and with its levels on the next token, on a proper suffix of `base`; every stack
seen since the shift, each once, is as many states at most on a suffix of `base`; and `base` is
at most that many states higher for each token taken. -/
structure SegmentInv (g : Grammar) (w : List Symbol) (c : Config) (base : List Nat) : Prop where
  viable : ∃ syms, Viable g w c syms
  base_lt : ∀ x ∈ base, x < g.automaton.states.length
  base_le : base.length ≤ c.taken * g.automaton.states.length + 1
  levels : ∃ A j look more, c.rest = look :: more ∧ c.stack = A ++ base.drop j ∧ A ≠ [] ∧
    A.length ≤ g.automaton.states.length ∧ 0 < j ∧ j ≤ base.length ∧
    g.analyze.table.Levels g.rules look A
  seen : ∀ σ ∈ c.seen, ∃ A j, σ = A ++ base.drop j ∧ A.length ≤ g.automaton.states.length ∧
    (∀ x ∈ A, x < g.automaton.states.length) ∧ j ≤ base.length
  nodup : c.seen.Nodup

/-- The steps that a run from `c` can still take, with `rows` states and an input of `len`
tokens: each token left is worth the most stacks that the steps after a shift can reach, and
before the next shift the stacks not seen yet can still be reached. -/
def cycleBudget (rows len : Nat) (c : Config) : Nat :=
  c.rest.length * (((len + 1) * rows + 2) * (rows + 1) ^ rows + 1) +
    ((c.taken * rows + 2) * (rows + 1) ^ rows - c.seen.length)

section Segment

variable {w : List Symbol} {c : Config} {base : List Nat}

theorem SegmentInv.seen_length_le (h : g.SegmentInv w c base) :
    c.seen.length ≤ (c.taken * g.automaton.states.length + 2) * (g.automaton.states.length + 1) ^
      g.automaton.states.length := by
  calc c.seen.length ≤ (base.length + 1) * (g.automaton.states.length + 1) ^
        g.automaton.states.length := length_le_of_tops states_length_pos h.nodup h.seen
    _ ≤ _ := Nat.mul_le_mul_right _ (by have := h.base_le; omega)

theorem SegmentInv.shift (h : g.SegmentInv w c base) {n : Nat} {look : Symbol}
    {more : List Symbol} (hrest : c.rest = look :: more)
    (hv : ∃ syms, Viable g w
      { c with stack := n :: c.stack, rest := more, taken := c.taken + 1, seen := [] } syms) :
    g.SegmentInv w { c with stack := n :: c.stack, rest := more, taken := c.taken + 1, seen := [] }
        (n :: c.stack) ∧
      cycleBudget g.automaton.states.length (w.filter (· != endMarker)).length
          { c with stack := n :: c.stack, rest := more, taken := c.taken + 1, seen := [] } <
        cycleBudget g.automaton.states.length (w.filter (· != endMarker)).length c := by
  obtain ⟨syms₀, hv₀⟩ := h.viable
  obtain ⟨syms, hv⟩ := hv
  obtain ⟨A, j, -, -, -, hstack, -, hA, hj, -, -⟩ := h.levels
  have hlt := lt_length_of_path hv.path
  have hn : n < g.automaton.states.length := hlt n List.mem_cons_self
  -- the stack is at most `rows` states above a proper suffix of `base`
  have hlen : (n :: c.stack).length ≤ (c.taken + 1) * g.automaton.states.length + 1 := by
    have := h.base_le
    rw [List.length_cons, hstack, List.length_append, List.length_drop, Nat.succ_mul]
    omega
  obtain ⟨look', more', hmore⟩ : ∃ look' more', more = look' :: more' := by
    have := hv.rest_eq
    simp only at this
    rw [this]
    exact List.exists_cons_of_ne_nil (by simp)
  refine ⟨⟨⟨syms, hv⟩, hlt, hlen, ⟨[n], 1, look', more', hmore, rfl, List.cons_ne_nil _ _,
    by simp only [List.length_singleton]; omega, Nat.one_pos, by simp,
    Table.levels_singleton look' n⟩, by simp, List.nodup_nil⟩, ?_⟩
  -- a token taken is worth more than the stacks reachable after it
  have htaken := hv₀.rest_length
  rw [hrest, List.length_cons] at htaken
  have hseen := h.seen_length_le
  have hcap : ((c.taken + 1) * g.automaton.states.length + 2) *
      (g.automaton.states.length + 1) ^ g.automaton.states.length ≤
      (((w.filter (· != endMarker)).length + 1) * g.automaton.states.length + 2) *
        (g.automaton.states.length + 1) ^ g.automaton.states.length :=
    Nat.mul_le_mul_right _ (Nat.add_le_add_right (Nat.mul_le_mul_right _ (by omega)) 2)
  have hstep : ∀ R W a b, a < W → R * W + a < (R + 1) * W + b := by
    intro R W a b h
    rw [Nat.add_one_mul]
    omega
  simp only [cycleBudget, hrest, List.length_cons, List.length_nil, Nat.sub_zero]
  exact hstep _ _ _ _ (Nat.lt_succ_of_le hcap)

theorem SegmentInv.top_of_reduce (h : g.SegmentInv w c base) {s k u n : Nat}
    {below lower : List Nat} {look : Symbol} {more : List Symbol} {r : Rule}
    (hs : c.stack = s :: below) (hr : c.rest = look :: more)
    (hact : g.analyze.table.action s look = .ok (some (.reduce k))) (hk : g.rules[k]? = some r)
    (hdrop : c.stack.drop r.body.length = u :: lower)
    (hcell : g.analyze.table.cell u r.lhs = .ok (.goto n)) :
    ∃ A' j', n :: u :: lower = A' ++ base.drop j' ∧ A' ≠ [] ∧ 0 < j' ∧ j' ≤ base.length ∧
      g.analyze.table.Levels g.rules look A' := by
  obtain ⟨A, j, look₀, more₀, hr₀, hstack, -, -, hj, hjle, hlev⟩ := h.levels
  obtain ⟨rfl, rfl⟩ := List.cons.inj (hr.symm.trans hr₀)
  by_cases hp : r.body.length < A.length
  · rw [hstack] at hs hdrop
    have hpop := hdrop
    rw [List.drop_append_of_le_length hp.le] at hpop
    exact ⟨n :: A.drop r.body.length, j, by rw [← hpop]; rfl, List.cons_ne_nil _ _, hj, hjle,
      hlev.reduce (by rw [hs]; rfl) hact hk hp hdrop hcell⟩
  · rw [hstack, List.drop_append, List.drop_eq_nil_of_le (by omega),
      List.nil_append, List.drop_drop] at hdrop
    refine ⟨[n], j + (r.body.length - A.length), by rw [← hdrop]; rfl, List.cons_ne_nil _ _,
      by omega, ?_, Table.levels_singleton look n⟩
    by_contra hgt
    rw [List.drop_eq_nil_of_le (by omega)] at hdrop
    cases hdrop

theorem SegmentInv.reduce (h : g.SegmentInv w c base) {s k u n : Nat} {below lower : List Nat}
    {look : Symbol} {more : List Symbol} {r : Rule} (hs : c.stack = s :: below)
    (hr : c.rest = look :: more)
    (hact : g.analyze.table.action s look = .ok (some (.reduce k))) (hk : g.rules[k]? = some r)
    (hdrop : c.stack.drop r.body.length = u :: lower)
    (hcell : g.analyze.table.cell u r.lhs = .ok (.goto n)) (hfresh : n :: u :: lower ∉ c.seen)
    (hv : ∃ syms, Viable g w { c with
      stack := n :: u :: lower
      reduced := k :: c.reduced
      seen := (n :: u :: lower) :: c.seen } syms) :
    (g.SegmentInv w { c with
        stack := n :: u :: lower
        reduced := k :: c.reduced
        seen := (n :: u :: lower) :: c.seen } base ∧
      cycleBudget g.automaton.states.length (w.filter (· != endMarker)).length { c with
          stack := n :: u :: lower
          reduced := k :: c.reduced
          seen := (n :: u :: lower) :: c.seen } <
        cycleBudget g.automaton.states.length (w.filter (· != endMarker)).length c) ∨
      g.analyze.table.TraceGrows g.rules { c with
        stack := n :: u :: lower
        reduced := k :: c.reduced
        seen := (n :: u :: lower) :: c.seen } := by
  obtain ⟨syms, hv⟩ := hv
  have hlt := lt_length_of_path hv.path
  obtain ⟨A', j', hstack', hA', hj', hj'le, hlev'⟩ := h.top_of_reduce hs hr hact hk hdrop hcell
  have hA'lt : ∀ x ∈ A', x < g.automaton.states.length := fun x hx =>
    hlt x (by simp only [hstack']; exact List.mem_append_left _ hx)
  by_cases hlong : A'.length ≤ g.automaton.states.length
  · have hinv : g.SegmentInv w { c with
        stack := n :: u :: lower
        reduced := k :: c.reduced
        seen := (n :: u :: lower) :: c.seen } base := by
      refine ⟨⟨syms, hv⟩, h.base_lt, h.base_le, ⟨A', j', look, more, hr, hstack', hA', hlong, hj',
        hj'le, hlev'⟩, ?_, List.nodup_cons.2 ⟨hfresh, h.nodup⟩⟩
      intro σ hσ
      rcases List.mem_cons.1 hσ with rfl | hσ
      · exact ⟨A', j', hstack', hlong, hA'lt, hj'le⟩
      · exact h.seen σ hσ
    refine .inl ⟨hinv, ?_⟩
    have hseen := hinv.seen_length_le
    simp only [List.length_cons] at hseen
    simp only [cycleBudget, List.length_cons]
    generalize (c.taken * g.automaton.states.length + 2) *
      (g.automaton.states.length + 1) ^ g.automaton.states.length = cap at hseen ⊢
    omega
  · exact .inr (Table.traceGrows_of_levels hlev' (Nat.lt_of_not_le hlong) hA'lt hstack' hr)

/-- Every step of a run keeps the segment invariant and lowers the budget, with the stack of a
shift as the new base, or reaches a configuration from which the run without the check grows
forever. -/
theorem SegmentInv.step (hwf : g.WellFormed) (h : g.SegmentInv w c base) {c' : Config}
    (hstep : g.analyze.table.step g.rules c = .next c') :
    (∃ base', g.SegmentInv w c' base' ∧
      cycleBudget g.automaton.states.length (w.filter (· != endMarker)).length c' <
        cycleBudget g.automaton.states.length (w.filter (· != endMarker)).length c) ∨
      g.analyze.table.TraceGrows g.rules c' := by
  obtain ⟨syms, hv⟩ := h.viable
  have hv' := (step_eq_next hwf hstep).viable hwf hv
  rcases Table.step_eq_next_iff.1 hstep with
    ⟨s, below, look, more, n, -, hrest, -, rfl⟩ |
    ⟨s, below, look, more, k, r, u, lower, n, hs, hrest, hact, hk, hdrop, hcell, hfresh, rfl⟩
  · exact .inl ⟨_, h.shift hrest hv'⟩
  · rcases h.reduce hs hrest hact hk hdrop hcell hfresh hv' with hkeep | hgrow
    · exact .inl ⟨base, hkeep⟩
    · exact .inr hgrow

end Segment

/-- A run of the recognizer that follows the trace and runs out of steps, with more steps than
its budget, passes a configuration from which the run without the check grows forever; so that
run grows forever from the start. -/
theorem traceGrows_of_run (hwf : g.WellFormed) {w : List Symbol} (fuel : Nat) :
    ∀ (i : Nat) {c : Config} {base : List Nat}, g.SegmentInv w c base →
      g.analyze.table.Follows g.rules (Table.start w) i c →
      cycleBudget g.automaton.states.length (w.filter (· != endMarker)).length c < fuel →
      g.analyze.table.run g.rules fuel c = .error .outOfSteps →
      g.analyze.table.TraceGrows g.rules (Table.start w) := by
  induction fuel with
  | zero => exact fun _ _ _ _ _ hlt _ => absurd hlt (Nat.not_lt_zero _)
  | succ fuel ih =>
    intro i c base hinv hf hlt hrun
    rw [Table.run] at hrun
    cases hstep : g.analyze.table.step g.rules c with
    | next c' =>
      rw [hstep] at hrun
      have hf' := hf.step.1 c' hstep
      rcases hinv.step hwf hstep with ⟨base', hinv', hdec⟩ | hgrow
      · exact ih (i + 1) hinv' hf' (by omega) hrun
      · exact hf'.traceGrows hgrow
    | accepted R =>
      rw [hstep] at hrun
      cases hrun
    | failed e =>
      rw [hstep] at hrun
      cases hrun
      exact absurd hstep (Table.step_ne_outOfSteps c)

theorem segmentInv_start (w : List Symbol) : g.SegmentInv w (Table.start w) [0] where
  viable := ⟨[], Viable.start w⟩
  base_lt := by simpa using states_length_pos
  base_le := by simp [Table.start]
  levels := by
    obtain ⟨look, more, hrest⟩ := List.exists_cons_of_ne_nil
      (by simp : (w.filter (· != endMarker)) ++ [endMarker] ≠ [])
    exact ⟨[0], 1, look, more, hrest, rfl, List.cons_ne_nil _ _, states_length_pos,
      Nat.one_pos, by simp, Table.levels_singleton look 0⟩
  seen := by simp [Table.start]
  nodup := List.nodup_nil

private theorem cycleBudget_arith {len N rows R K : Nat} (hlen : len ≤ N) (hpos : 0 < rows)
    (hK : 1 ≤ K) :
    (len + 1) * (((len + 1) * rows + 2) * K + 1) + 2 * K <
      (N + 1) * (N + 1 + (rows + 1) + 1) * (K * (rows + 1) * (rows + 1)) * (R + 1) + 1 := by
  generalize hn : N + 1 = n
  have hn1 : 1 ≤ n := by omega
  have h1 : (len + 1) * (((len + 1) * rows + 2) * K + 1) ≤ n * ((n * rows + 2) * K + 1) := by
    have : len + 1 ≤ n := by omega
    gcongr
  have h2 : n * ((n * rows + 2) * K + 1) + 2 * K ≤ n * K * (n * rows + n + 6) := by
    have e1 : n ≤ n * K * n := Nat.le_mul_of_pos_left n (Nat.mul_pos (by omega) (by omega))
    have e2 : 2 * K ≤ 4 * (n * K) := by nlinarith
    have l : n * ((n * rows + 2) * K + 1) + 2 * K = n * K * (n * rows + 2) + n + 2 * K := by ring
    have r : n * K * (n * rows + n + 6) = n * K * (n * rows + 2) + n * K * n + 4 * (n * K) := by
      ring
    omega
  have h3 : n * K * (n * rows + n + 6) ≤ n * (n + (rows + 1) + 1) * (K * (rows + 1) * (rows + 1)) := by
    have f1 : rows + 1 ≤ (rows + 1) * (rows + 1) := Nat.le_mul_of_pos_left _ (Nat.succ_pos _)
    have f2 : n * rows + n + 6 ≤ (n + (rows + 1) + 1) * (rows + 1) := by
      have : 1 ≤ rows * rows := Nat.mul_le_mul hpos hpos
      nlinarith
    have f : n * rows + n + 6 ≤ (n + (rows + 1) + 1) * ((rows + 1) * (rows + 1)) :=
      f2.trans (Nat.mul_le_mul_left _ f1)
    calc n * K * (n * rows + n + 6) ≤ n * K * ((n + (rows + 1) + 1) * ((rows + 1) * (rows + 1))) :=
          Nat.mul_le_mul_left _ f
      _ = n * (n + (rows + 1) + 1) * (K * (rows + 1) * (rows + 1)) := by ring
  have h4 : n * (n + (rows + 1) + 1) * (K * (rows + 1) * (rows + 1)) ≤
      n * (n + (rows + 1) + 1) * (K * (rows + 1) * (rows + 1)) * (R + 1) :=
    Nat.le_mul_of_pos_right _ (Nat.succ_pos R)
  omega

/-- The recognizer gives a run more steps than its budget from the start. -/
theorem cycleBudget_start_lt (w : List Symbol) :
    cycleBudget g.automaton.states.length (w.filter (· != endMarker)).length (Table.start w) <
      g.analyze.table.stepBudget g.rules w := by
  have hrows : g.analyze.table.rows.length = g.automaton.states.length := by
    simp [table_analyze, tableWith]
  have hrest : (Table.start w).rest.length = (w.filter (· != endMarker)).length + 1 := by
    simp [Table.start]
  simp only [cycleBudget, Table.stepBudget, hrows, hrest, Nat.pow_eq, pow_succ]
  simp only [Table.start, List.length_nil, Nat.zero_mul, Nat.zero_add, Nat.sub_zero]
  exact cycleBudget_arith (List.length_filter_le _ w) states_length_pos
    (Nat.one_le_pow _ _ (Nat.succ_pos _))

/-! ## The check for stacks seen -/

/-- On the table of a grammar read from text, the check for stacks seen between two shifts
changes no run that ends without it, and stops exactly the runs that go round a cycle of
reductions. If the run that never checks ends, the recognizer ends the same way. The recognizer
closes a cycle of reductions exactly when that run goes on by reductions forever on stacks below
a bound. Otherwise that run goes on by reductions forever on a stack that grows past every bound,
and then the recognizer runs out of steps, however many it is given. -/
theorem recognize_cycle_check_sound {text : String} {g : Grammar}
    (hg : Grammar.read text = .ok g) (w : List Symbol) :
    (∀ r, g.analyze.table.TraceEnds g.rules (Table.start w) r →
      g.analyze.table.recognize g.rules w = r) ∧
    ((∃ k text u, g.analyze.table.recognize g.rules w = .error (.reduceCycle k text u)) ↔
      g.analyze.table.TraceCycles g.rules (Table.start w)) ∧
    ((¬∃ r, g.analyze.table.TraceEnds g.rules (Table.start w) r) ∧
        ¬g.analyze.table.TraceCycles g.rules (Table.start w) ↔
      g.analyze.table.TraceGrows g.rules (Table.start w)) ∧
    (g.analyze.table.TraceGrows g.rules (Table.start w) →
      ∀ fuel, g.analyze.table.run g.rules fuel (Table.start w) = .error .outOfSteps) := by
  have hf : g.analyze.table.Follows g.rules (Table.start w) 0 (Table.start w) :=
    Table.Follows.start rfl
  -- the recognizer runs out of steps, ends as the trace, or closes a cycle the trace goes round
  have hrun : g.analyze.table.recognize g.rules w = .error .outOfSteps ∨
      g.analyze.table.TraceEnds g.rules (Table.start w) (g.analyze.table.recognize g.rules w) ∨
      ((∃ k text u, g.analyze.table.recognize g.rules w = .error (.reduceCycle k text u)) ∧
        g.analyze.table.TraceRepeats g.rules (Table.start w)) :=
    Table.run_of_follows _ 0 hf
  have hbudget : g.analyze.table.recognize g.rules w = .error .outOfSteps →
      g.analyze.table.TraceGrows g.rules (Table.start w) :=
    traceGrows_of_run (read_wellFormed hg) _ 0 (segmentInv_start w) hf (cycleBudget_start_lt w)
  refine ⟨fun r hr => ?_, ⟨fun ⟨k, text, u, hcyc⟩ => ?_, fun hcyc => ?_⟩,
    ⟨fun ⟨hne, hnc⟩ => ?_, fun hgrow => ⟨fun ⟨r, hr⟩ => hgrow.not_ends r hr, fun hc => hc.not_grows hgrow⟩⟩,
    fun hgrow fuel => ?_⟩
  · rcases hrun with hout | hend | ⟨-, hrep⟩
    · exact absurd hr ((hbudget hout).not_ends r)
    · obtain ⟨m, hm⟩ := hend
      obtain ⟨n, hn⟩ := hr
      exact Table.result_eq_of_trace hm hn
    · exact absurd hr (hrep.cycles.1.not_ends r)
  · rcases hrun with hout | ⟨n, hn⟩ | ⟨-, hrep⟩
    · exact absurd (hcyc.symm.trans hout) (by simp)
    · rw [hcyc] at hn
      exact absurd hn (Table.trace_ne_reduceCycle n _ k text u)
    · exact hrep.cycles.1
  · rcases hrun with hout | hend | ⟨hcycle, -⟩
    · exact absurd (hbudget hout) hcyc.not_grows
    · exact absurd hend (hcyc.not_ends _)
    · exact hcycle
  · rcases hrun with hout | hend | ⟨-, hrep⟩
    · exact hbudget hout
    · exact absurd ⟨_, hend⟩ hne
    · exact absurd hrep.cycles.1 hnc
  · rcases Table.run_of_follows fuel 0 hf with hout | hend | ⟨-, hrep⟩
    · exact hout
    · exact absurd hend (hgrow.not_ends _)
    · exact absurd hgrow hrep.cycles.1.not_grows

/-- In `S -> A`, `A -> A | a` the run on `a` reduces by `A -> A` back to the stack it starts
from, and the recognizer stops it. -/
theorem recognize_cycle_check_sound_unitLoop :
    Grammar.read "S -> A\nA -> A | a" = .ok unitLoop ∧
      (∀ r, unitLoop.analyze.table.TraceEnds unitLoop.rules (Table.start ["a"]) r →
        unitLoop.analyze.table.recognize unitLoop.rules ["a"] = r) ∧
      ((∃ k text u, unitLoop.analyze.table.recognize unitLoop.rules ["a"] =
          .error (.reduceCycle k text u)) ↔
        unitLoop.analyze.table.TraceCycles unitLoop.rules (Table.start ["a"])) ∧
      ((¬∃ r, unitLoop.analyze.table.TraceEnds unitLoop.rules (Table.start ["a"]) r) ∧
          ¬unitLoop.analyze.table.TraceCycles unitLoop.rules (Table.start ["a"]) ↔
        unitLoop.analyze.table.TraceGrows unitLoop.rules (Table.start ["a"])) ∧
      (unitLoop.analyze.table.TraceGrows unitLoop.rules (Table.start ["a"]) →
        ∀ fuel, unitLoop.analyze.table.run unitLoop.rules fuel (Table.start ["a"]) =
          .error .outOfSteps) := by
  have hread : Grammar.read "S -> A\nA -> A | a" = .ok unitLoop := by rfl
  exact ⟨hread, recognize_cycle_check_sound hread ["a"]⟩

end Grammar

end SimpleLR
