import SimpleLR.Lookahead.Context
import SimpleLR.Proofs.FollowSets
/-!
# FIRST by search is the least solution of its equations

FIRST, as this library defines it, is the least solution of the equations

* FIRST(x) = {x} when the text does not define `x`: a terminal, the augmented start, an unknown
  name, `ε`;
* FIRST(A) = the union over the alternatives of `A` of {ε} for `[ε]` and of FIRST of the first
  symbol for the others.

`LeastFirst` is that solution, the least relation closed under the equations, and
`leastFirst_iff` says that it solves them.

The search of a question finds it, although it gives nothing for a symbol in progress and keeps
in its memo sets that may lack what an ancestor in progress contributes. Every set a search puts
in the memo flows into the set that the search returns; every symbol whose search finished is in
the memo, with `ε` if it has the empty alternative; and the search met each first symbol of its
other alternatives: that symbol was in progress, or is in the memo, or is undefined and in the
set (`firstSearch_leaves_both`). At the top of a question nothing is in progress, so every
symbol that FIRST reaches from the one asked about was met, and all it gives is in the answer
(`mem_firstSearch_top`). The worklist of `Grammar.first` finds the same sets
(`mem_first_iff_leastFirst`).
-/

namespace SimpleLR

namespace Grammar

variable {g : Grammar}

/-! ## The least solution -/

/-- `g.LeastFirst x a`: `a` is in FIRST of `x` in the least solution of the equations of
FIRST. -/
inductive LeastFirst (g : Grammar) : Symbol → Symbol → Prop
  | undefined {x : Symbol} : g.defines x = false → g.LeastFirst x x
  | empty {x : Symbol} : [epsilon] ∈ g.alternatives x → g.LeastFirst x epsilon
  | head {x y a : Symbol} {rhs : List Symbol} : rhs ∈ g.alternatives x → rhs ≠ [epsilon] →
      rhs.head? = some y → g.LeastFirst y a → g.LeastFirst x a

theorem defines_of_mem_alternatives {x : Symbol} {rhs : List Symbol}
    (h : rhs ∈ g.alternatives x) : g.defines x = true := by
  obtain ⟨r, hr, rfl, -⟩ := mem_alternatives.1 h
  exact (defines_iff g r.lhs).2 ⟨r, hr, rfl⟩

/-- `LeastFirst` solves the equations of FIRST. -/
theorem leastFirst_iff {x a : Symbol} : g.LeastFirst x a ↔
    (g.defines x = false ∧ a = x) ∨ ∃ rhs ∈ g.alternatives x,
      (rhs = [epsilon] ∧ a = epsilon) ∨
        (rhs ≠ [epsilon] ∧ ∃ y, rhs.head? = some y ∧ g.LeastFirst y a) := by
  constructor
  · intro h
    cases h with
    | undefined hx => exact .inl ⟨hx, rfl⟩
    | empty hx => exact .inr ⟨[epsilon], hx, .inl ⟨rfl, rfl⟩⟩
    | head hrhs hne hy ha => exact .inr ⟨_, hrhs, .inr ⟨hne, _, hy, ha⟩⟩
  · rintro (⟨hx, rfl⟩ | ⟨rhs, hrhs, ⟨rfl, rfl⟩ | ⟨hne, y, hy, ha⟩⟩)
    · exact .undefined hx
    · exact .empty hrhs
    · exact .head hrhs hne hy ha

theorem mem_firstEdges_iff {x y : Symbol} :
    y ∈ g.firstEdges x ↔ ∃ rhs ∈ g.alternatives x, rhs ≠ [epsilon] ∧ rhs.head? = some y := by
  simp only [firstEdges, List.mem_filterMap]
  constructor
  · rintro ⟨rhs, hrhs, hy⟩
    split at hy
    · cases hy
    · exact ⟨rhs, hrhs, ‹_›, hy⟩
  · rintro ⟨rhs, hrhs, hne, hy⟩
    exact ⟨rhs, hrhs, by rw [if_neg hne]; exact hy⟩

theorem mem_of_lookup {memo : Memo} {x : Symbol} {s : List Symbol}
    (h : memo.lookup x = some s) : (x, s) ∈ memo := by
  obtain ⟨l₁, l₂, rfl, -⟩ := List.lookup_eq_some_iff.1 h
  simp

/-! ## What a search finds is in FIRST -/

/-- Every set in the memo holds members of its symbol's FIRST only. -/
def MemoSound (g : Grammar) (memo : Memo) : Prop := ∀ e ∈ memo, ∀ a ∈ e.2, g.LeastFirst e.1 a

theorem gives_cons {α : Type} {gives : α → Symbol → Prop} {x : α} {xs : List α}
    {out mid r : List Symbol} (hr : ∀ a ∈ r, a ∈ mid ∨ ∃ y ∈ xs, gives y a)
    (hmid : ∀ a ∈ mid, a ∈ out ∨ gives x a) : ∀ a ∈ r, a ∈ out ∨ ∃ y ∈ x :: xs, gives y a := by
  intro a ha
  rcases hr a ha with ha | ⟨y, hy, hgives⟩
  · rcases hmid a ha with ha | hgives
    · exact .inl ha
    · exact .inr ⟨x, List.mem_cons_self, hgives⟩
  · exact .inr ⟨y, List.mem_cons_of_mem _ hy, hgives⟩

theorem firstSearch_sound_both :
    (∀ x inProgress memo, g.MemoSound memo →
      g.MemoSound (g.firstSearch x inProgress memo).2 ∧
        ∀ a ∈ (g.firstSearch x inProgress memo).1, g.LeastFirst x a) ∧
    (∀ alts inProgress memo out, g.MemoSound memo →
      g.MemoSound (g.firstSearchAlts alts inProgress memo out).2 ∧
        ∀ a ∈ (g.firstSearchAlts alts inProgress memo out).1, a ∈ out ∨ ∃ rhs ∈ alts,
          (rhs = [epsilon] ∧ a = epsilon) ∨
            (rhs ≠ [epsilon] ∧ ∃ y, rhs.head? = some y ∧ g.LeastFirst y a)) := by
  apply firstSearch.mutual_induct g
  case case1 =>
    intro x inProgress memo hx hmemo
    rw [firstSearch_of_mem hx]
    exact ⟨hmemo, by simp⟩
  case case2 =>
    intro x inProgress memo hx s hs hmemo
    rw [firstSearch_of_lookup hx hs]
    exact ⟨hmemo, hmemo (x, s) (mem_of_lookup hs)⟩
  case case3 =>
    intro x inProgress memo hx hs hd ih hmemo
    rw [firstSearch_of_defines hx hs hd]
    obtain ⟨hmemo', hout⟩ := ih hmemo
    have hx' : ∀ a ∈ (g.firstSearchAlts (g.alternatives x) (x :: inProgress) memo []).1,
        g.LeastFirst x a := by
      intro a ha
      rcases hout a ha with hnil | ⟨rhs, hrhs, ⟨rfl, rfl⟩ | ⟨hne, y, hy, hya⟩⟩
      · cases hnil
      · exact .empty hrhs
      · exact .head hrhs hne hy hya
    refine ⟨?_, hx'⟩
    intro e he
    rcases List.mem_cons.1 he with rfl | he
    · exact hx'
    · exact hmemo' e he
  case case4 =>
    intro x inProgress memo hx hs hd hmemo
    rw [firstSearch_of_not_defines hx hs (Bool.eq_false_iff.2 hd)]
    refine ⟨hmemo, ?_⟩
    intro a ha
    rw [List.mem_singleton.1 ha]
    exact .undefined (Bool.eq_false_iff.2 hd)
  case case5 =>
    intro inProgress memo out hmemo
    rw [firstSearchAlts_nil]
    exact ⟨hmemo, fun a ha => .inl ha⟩
  case case6 =>
    intro rest inProgress memo out ih hmemo
    rw [firstSearchAlts_epsilon]
    obtain ⟨hmemo', hout⟩ := ih hmemo
    refine ⟨hmemo', gives_cons hout fun a hu => ?_⟩
    rcases mem_unite.1 hu with hu | hu
    · exact .inl hu
    · exact .inr (.inl ⟨rfl, List.mem_singleton.1 hu⟩)
  case case7 =>
    intro rhs rest inProgress memo out hne hy ih hmemo
    rw [firstSearchAlts_head_none hne hy]
    obtain ⟨hmemo', hout⟩ := ih hmemo
    exact ⟨hmemo', gives_cons hout fun a hu => .inl hu⟩
  case case8 =>
    intro rhs rest inProgress memo out hne y hy _ ihy ih hmemo
    rw [firstSearchAlts_head hne hy]
    obtain ⟨hmemo₁, hy'⟩ := ihy hmemo
    obtain ⟨hmemo₂, hout⟩ := ih hmemo₁
    refine ⟨hmemo₂, gives_cons hout fun a hu => ?_⟩
    rcases mem_unite.1 hu with hu | hu
    · exact .inl hu
    · exact .inr (.inr ⟨hne, y, hy, hy' a hu⟩)

/-! ## What a search leaves for the question -/

/-- The search met `z`, returning the set `s`: `z` is in progress, or has a set in the memo, or
the text does not define it and it is in `s`. -/
def Met (g : Grammar) (inProgress : List Symbol) (memo : Memo) (s : List Symbol) (z : Symbol) :
    Prop :=
  z ∈ inProgress ∨ (∃ t, (z, t) ∈ memo) ∨ (g.defines z = false ∧ z ∈ s)

/-- A memo entry `(y, s)` left by a finished search: `y` is defined, `s` holds `ε` when `y` has
the empty alternative, and the search met the first symbol of each other alternative. -/
structure Covered (g : Grammar) (inProgress : List Symbol) (memo : Memo)
    (e : Symbol × List Symbol) : Prop where
  defined : g.defines e.1 = true
  empty : [epsilon] ∈ g.alternatives e.1 → epsilon ∈ e.2
  heads : ∀ z ∈ g.firstEdges e.1, g.Met inProgress memo e.2 z

/-- The memo `memo'` is `memo` grown by new entries, each `cover`ed and with its set inside
`s`: what a search that returned `s` and `memo'`, started with `memo`, leaves. -/
def Grown (cover : Memo → Symbol × List Symbol → Prop) (memo : Memo) (s : List Symbol)
    (memo' : Memo) : Prop :=
  ∃ new, memo' = new ++ memo ∧ ∀ e ∈ new, (∀ a ∈ e.2, a ∈ s) ∧ cover memo' e

/-- What a search of FIRST that returned `r`, started with the memo `memo`, leaves. -/
def Leaves (g : Grammar) (inProgress : List Symbol) (memo : Memo) (r : List Symbol × Memo) :
    Prop :=
  Grown (g.Covered inProgress) memo r.1 r.2

section Grown

variable {cover : Memo → Symbol × List Symbol → Prop} {memo memo' memo₁ memo₂ : Memo}
  {s s₁ s₂ : List Symbol}

theorem grown_self (s : List Symbol) : Grown cover memo s memo :=
  ⟨[], rfl, by simp⟩

theorem Grown.subset (h : Grown cover memo s memo') : ∀ e ∈ memo, e ∈ memo' := by
  obtain ⟨new, rfl, -⟩ := h
  exact fun e he => List.mem_append_right _ he

theorem Grown.trans (hmono : ∀ {m m' : Memo} {e}, cover m e → (∀ e ∈ m, e ∈ m') → cover m' e)
    (h₁ : Grown cover memo s₁ memo₁) (h₂ : Grown cover memo₁ s₂ memo₂)
    (hflow : ∀ a ∈ s₁, a ∈ s₂) : Grown cover memo s₂ memo₂ := by
  have hgrow := h₂.subset
  obtain ⟨new₁, rfl, hnew₁⟩ := h₁
  obtain ⟨new₂, rfl, hnew₂⟩ := h₂
  refine ⟨new₂ ++ new₁, by rw [List.append_assoc], fun e he => ?_⟩
  rcases List.mem_append.1 he with he | he
  · exact hnew₂ e he
  · obtain ⟨hset, hcov⟩ := hnew₁ e he
    exact ⟨fun a ha => hflow a (hset a ha), hmono hcov hgrow⟩

end Grown

section Met

variable {inProgress : List Symbol} {memo memo' : Memo} {s s' : List Symbol} {z : Symbol}

theorem Met.mono (h : g.Met inProgress memo s z) (hmemo : ∀ e ∈ memo, e ∈ memo')
    (hs : ∀ a ∈ s, a ∈ s') : g.Met inProgress memo' s' z := by
  rcases h with hz | ⟨t, ht⟩ | ⟨hd, hz⟩
  · exact .inl hz
  · exact .inr (.inl ⟨t, hmemo _ ht⟩)
  · exact .inr (.inr ⟨hd, hs z hz⟩)

theorem Met.pop {x : Symbol} (h : g.Met (x :: inProgress) memo s z) (hx : ∃ t, (x, t) ∈ memo) :
    g.Met inProgress memo s z := by
  rcases h with hz | hmemo | hund
  · rcases List.mem_cons.1 hz with rfl | hz
    · exact .inr (.inl hx)
    · exact .inl hz
  · exact .inr (.inl hmemo)
  · exact .inr (.inr hund)

theorem Covered.mono {e : Symbol × List Symbol} (h : g.Covered inProgress memo e)
    (hmemo : ∀ e ∈ memo, e ∈ memo') : g.Covered inProgress memo' e :=
  ⟨h.defined, h.empty, fun z hz => (h.heads z hz).mono hmemo fun _ ha => ha⟩

theorem Covered.pop {x : Symbol} {e : Symbol × List Symbol} (h : g.Covered (x :: inProgress) memo e)
    (hx : ∃ t, (x, t) ∈ memo) : g.Covered inProgress memo e :=
  ⟨h.defined, h.empty, fun z hz => (h.heads z hz).pop hx⟩

end Met

/-- A search leaves covered entries and meets the symbol it searched; the loop over alternatives
keeps what it started with, meets the first symbol of each alternative other than `[ε]`, and
adds `ε` for `[ε]`. -/
theorem firstSearch_leaves_both :
    (∀ x inProgress memo,
      g.Leaves inProgress memo (g.firstSearch x inProgress memo) ∧
        g.Met inProgress (g.firstSearch x inProgress memo).2 (g.firstSearch x inProgress memo).1 x) ∧
    (∀ alts inProgress memo out,
      g.Leaves inProgress memo (g.firstSearchAlts alts inProgress memo out) ∧
        (∀ a ∈ out, a ∈ (g.firstSearchAlts alts inProgress memo out).1) ∧
        ∀ rhs ∈ alts, (rhs = [epsilon] → epsilon ∈ (g.firstSearchAlts alts inProgress memo out).1) ∧
          ∀ y, rhs ≠ [epsilon] → rhs.head? = some y →
            g.Met inProgress (g.firstSearchAlts alts inProgress memo out).2
              (g.firstSearchAlts alts inProgress memo out).1 y) := by
  apply firstSearch.mutual_induct g
  case case1 =>
    intro x inProgress memo hx
    rw [firstSearch_of_mem hx]
    exact ⟨grown_self _, .inl hx⟩
  case case2 =>
    intro x inProgress memo hx s hs
    rw [firstSearch_of_lookup hx hs]
    exact ⟨grown_self _, .inr (.inl ⟨s, mem_of_lookup hs⟩)⟩
  case case3 =>
    intro x inProgress memo hx hs hd ih
    rw [firstSearch_of_defines hx hs hd]
    obtain ⟨⟨new, hr, hnew⟩, -, halts⟩ := ih
    set r := g.firstSearchAlts (g.alternatives x) (x :: inProgress) memo []
    have hx_mem : ∃ t, (x, t) ∈ (x, r.1) :: r.2 := ⟨r.1, List.mem_cons_self⟩
    have hgrow : ∀ e ∈ r.2, e ∈ (x, r.1) :: r.2 := fun e he => List.mem_cons_of_mem _ he
    have hcov : g.Covered inProgress ((x, r.1) :: r.2) (x, r.1) := by
      refine ⟨hd, fun hε => (halts _ hε).1 rfl, fun z hz => ?_⟩
      obtain ⟨rhs, hrhs, hne, hz⟩ := mem_firstEdges_iff.1 hz
      exact (((halts rhs hrhs).2 z hne hz).mono hgrow fun _ ha => ha).pop hx_mem
    refine ⟨⟨(x, r.1) :: new, by rw [hr]; rfl, fun e he => ?_⟩, .inr (.inl hx_mem)⟩
    rcases List.mem_cons.1 he with rfl | he
    · exact ⟨fun _ ha => ha, hcov⟩
    · obtain ⟨hset, hcov'⟩ := hnew e he
      exact ⟨hset, (hcov'.mono hgrow).pop hx_mem⟩
  case case4 =>
    intro x inProgress memo hx hs hd
    rw [firstSearch_of_not_defines hx hs (Bool.eq_false_iff.2 hd)]
    exact ⟨grown_self _, .inr (.inr ⟨Bool.eq_false_iff.2 hd, List.mem_singleton_self _⟩)⟩
  case case5 =>
    intro inProgress memo out
    rw [firstSearchAlts_nil]
    exact ⟨grown_self _, fun _ ha => ha, by simp⟩
  case case6 =>
    intro rest inProgress memo out ih
    rw [firstSearchAlts_epsilon]
    obtain ⟨hleaves, hkeep, halts⟩ := ih
    refine ⟨hleaves, fun a ha => hkeep a (mem_unite.2 (.inl ha)),
      List.forall_mem_cons.2 ⟨?_, halts⟩⟩
    exact ⟨fun _ => hkeep _ (mem_unite.2 (.inr (List.mem_singleton_self _))),
      fun _ hne => absurd rfl hne⟩
  case case7 =>
    intro rhs rest inProgress memo out hne hy ih
    rw [firstSearchAlts_head_none hne hy]
    obtain ⟨hleaves, hkeep, halts⟩ := ih
    refine ⟨hleaves, hkeep, List.forall_mem_cons.2 ⟨?_, halts⟩⟩
    exact ⟨fun h => absurd h hne, fun y _ hy' => by rw [hy] at hy'; cases hy'⟩
  case case8 =>
    intro rhs rest inProgress memo out hne y hy _ ihy ih
    rw [firstSearchAlts_head hne hy]
    obtain ⟨hleaves₁, hmet⟩ := ihy
    obtain ⟨hleaves₂, hkeep, halts⟩ := ih
    set r₁ := g.firstSearch y inProgress memo
    set r₂ := g.firstSearchAlts rest inProgress r₁.2 (unite out r₁.1)
    have hgrow : ∀ e ∈ r₁.2, e ∈ r₂.2 := Grown.subset hleaves₂
    refine ⟨Grown.trans (fun h hm => h.mono hm) hleaves₁ hleaves₂
      fun a ha => hkeep a (mem_unite.2 (.inr ha)),
      fun a ha => hkeep a (mem_unite.2 (.inl ha)), List.forall_mem_cons.2 ⟨?_, halts⟩⟩
    refine ⟨fun h => absurd h hne, fun y' _ hy' => ?_⟩
    rw [hy, Option.some.injEq] at hy'
    subst hy'
    exact hmet.mono hgrow fun a ha => hkeep a (mem_unite.2 (.inr ha))

/-! ## The answer to a question -/

theorem mem_of_met_top {out : List Symbol} {memo : Memo}
    (hmemo : ∀ e ∈ memo, (∀ a ∈ e.2, a ∈ out) ∧ g.Covered [] memo e) {y a : Symbol}
    (hmet : g.Met [] memo out y) (h : g.LeastFirst y a) : a ∈ out := by
  induction h with
  | undefined hy =>
    rcases hmet with hnil | ⟨t, ht⟩ | ⟨-, hy'⟩
    · cases hnil
    · have hd := (hmemo _ ht).2.defined
      rw [hy] at hd
      cases hd
    · exact hy'
  | empty hε =>
    rcases hmet with hnil | ⟨t, ht⟩ | ⟨hy, -⟩
    · cases hnil
    · exact (hmemo _ ht).1 _ ((hmemo _ ht).2.empty hε)
    · rw [defines_of_mem_alternatives hε] at hy
      cases hy
  | head hrhs hne hz _ ih =>
    rcases hmet with hnil | ⟨t, ht⟩ | ⟨hy, -⟩
    · cases hnil
    · apply ih
      exact ((hmemo _ ht).2.heads _ (mem_firstEdges_iff.2 ⟨_, hrhs, hne, hz⟩)).mono
        (fun e he => he) (hmemo _ ht).1
    · rw [defines_of_mem_alternatives hrhs] at hy
      cases hy

/-- A search from an empty memo with nothing in progress finds exactly FIRST. -/
theorem mem_firstSearch_top {x a : Symbol} :
    a ∈ (g.firstSearch x [] []).1 ↔ g.LeastFirst x a := by
  constructor
  · intro ha
    exact (firstSearch_sound_both.1 x [] [] (by simp [MemoSound])).2 a ha
  · intro h
    obtain ⟨⟨new, hr, hnew⟩, hmet⟩ := firstSearch_leaves_both.1 x [] []
    rw [List.append_nil] at hr
    exact mem_of_met_top (fun e he => hnew e (hr ▸ he)) hmet h

/-- Every answer about FIRST that a context keeps is exact. -/
def FirstKept (g : Grammar) (c : LookaheadContext) : Prop :=
  ∀ e ∈ c.first, ∀ a, a ∈ e.2 ↔ g.LeastFirst e.1 a

section Query

variable {c : LookaheadContext}

theorem mem_firstQuery (hc : g.FirstKept c) (x a : Symbol) :
    a ∈ (g.firstQuery c x).1 ↔ g.LeastFirst x a := by
  unfold firstQuery
  split
  · exact hc _ (mem_of_lookup ‹_›) a
  · exact mem_firstSearch_top

theorem firstKept_firstQuery (hc : g.FirstKept c) (x : Symbol) :
    g.FirstKept (g.firstQuery c x).2 := by
  unfold firstQuery
  split
  · exact hc
  · intro e he a
    rcases List.mem_cons.1 he with rfl | he
    · exact mem_firstSearch_top
    · exact hc e he a

/-- Asking about FIRST keeps the answers about FOLLOW. -/
@[simp] theorem follow_firstQuery (c : LookaheadContext) (x : Symbol) :
    (g.firstQuery c x).2.follow = c.follow := by
  unfold firstQuery
  split <;> rfl

end Query

/-! ## The worklist finds the same sets -/

theorem leastFirst_of_reaches {domain : List Symbol} {x y a : Symbol}
    (h : Reaches g.firstEdges domain [x] y) (ha : g.LeastFirst y a) : g.LeastFirst x a := by
  induction h generalizing a with
  | seed _ hs =>
    rw [← List.mem_singleton.1 hs]
    exact ha
  | step _ _ hy ih =>
    obtain ⟨rhs, hrhs, hne, hy⟩ := mem_firstEdges_iff.1 hy
    exact ih (.head hrhs hne hy ha)

theorem exists_reaches_of_leastFirst {x a : Symbol} (h : g.LeastFirst x a) :
    ∃ y, Reaches g.firstEdges (x :: g.mentioned).eraseDups [x] y ∧
      ((g.defines y = false ∧ a = y) ∨ (g.hasEmpty y = true ∧ a = epsilon)) := by
  have hstart : x ∈ (x :: g.mentioned).eraseDups := List.mem_eraseDups.2 List.mem_cons_self
  induction h with
  | undefined hx => exact ⟨_, .seed hstart (List.mem_singleton_self _), .inl ⟨hx, rfl⟩⟩
  | empty hε =>
    refine ⟨_, .seed hstart (List.mem_singleton_self _), .inr ⟨?_, rfl⟩⟩
    simpa [hasEmpty] using hε
  | @head x z a rhs hrhs hne hz _ ih =>
    obtain ⟨y, hreach, hgives⟩ := ih (List.mem_eraseDups.2 List.mem_cons_self)
    -- the first symbol is mentioned, so the domain from it lies within the domain from `x`
    have hz_mentioned : z ∈ g.mentioned := by
      obtain ⟨r, hr, -, rfl⟩ := mem_alternatives.1 hrhs
      exact mem_mentioned.2 ⟨r, List.mem_cons_of_mem _ hr, .inr (List.mem_of_mem_head? hz)⟩
    have hsub : ∀ w ∈ (z :: g.mentioned).eraseDups, w ∈ (x :: g.mentioned).eraseDups := by
      intro w hw
      rcases List.mem_cons.1 (List.mem_eraseDups.1 hw) with rfl | hw
      · exact List.mem_eraseDups.2 (List.mem_cons_of_mem _ hz_mentioned)
      · exact List.mem_eraseDups.2 (List.mem_cons_of_mem _ hw)
    have hedge : Reaches g.firstEdges (x :: g.mentioned).eraseDups [x] z :=
      .step (.seed (List.mem_eraseDups.2 List.mem_cons_self) (List.mem_singleton_self _))
        (List.mem_eraseDups.2 (List.mem_cons_of_mem _ hz_mentioned))
        (mem_firstEdges_iff.2 ⟨rhs, hrhs, hne, hz⟩)
    exact ⟨y, hedge.trans (hreach.mono_domain hsub), hgives⟩

theorem mem_firstReach {x y : Symbol} :
    y ∈ g.firstReach x ↔ Reaches g.firstEdges (x :: g.mentioned).eraseDups [x] y :=
  mem_reach_iff

/-- The worklist of `Grammar.first` finds FIRST as well. -/
theorem mem_first_iff_leastFirst {x a : Symbol} : a ∈ g.first x ↔ g.LeastFirst x a := by
  simp only [first, List.mem_eraseDups, List.mem_append, List.mem_filter, Bool.not_eq_true']
  constructor
  · rintro (⟨hreach, hdef⟩ | hε)
    · exact leastFirst_of_reaches (mem_firstReach.1 hreach) (.undefined hdef)
    · by_cases hany : (g.firstReach x).any g.hasEmpty = true
      · rw [if_pos hany] at hε
        obtain ⟨y, hy, hemp⟩ := List.any_eq_true.1 hany
        rw [List.mem_singleton.1 hε]
        exact leastFirst_of_reaches (mem_firstReach.1 hy) (.empty (by simpa [hasEmpty] using hemp))
      · rw [if_neg hany] at hε
        cases hε
  · intro h
    obtain ⟨y, hreach, ⟨hdef, rfl⟩ | ⟨hemp, rfl⟩⟩ := exists_reaches_of_leastFirst h
    · exact .inl ⟨mem_firstReach.2 hreach, hdef⟩
    · refine .inr ?_
      rw [if_pos (List.any_eq_true.2 ⟨y, mem_firstReach.2 hreach, hemp⟩)]
      exact List.mem_singleton_self _

end Grammar

end SimpleLR
