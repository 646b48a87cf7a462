import SimpleLR.Proofs.FirstSearch
/-!
# FOLLOW by search is the least solution of its equations

FOLLOW, as this library defines it, is the least family of sets such that the end marker
follows the augmented start, and for every rule `B -> α` (the augmented start rule included)
and every position `i` where `α[i]` is `A`:

* if `A` ends `α`, FOLLOW(B) is in FOLLOW(A);
* otherwise FIRST(α[i+1]) without `ε` is in FOLLOW(A), and FOLLOW(B) is too when that FIRST
  holds `ε`.

`LeastFollow` is that family, with FIRST the least solution `LeastFirst`. The search skips a
rule whose left-hand side is `A` itself, which changes nothing: such a rule only asks FOLLOW(A)
to hold itself.

The FOLLOW search is proved as the FIRST search is: what it finds is in FOLLOW
(`followSearch_sound_both`), and every symbol whose search finished is in the memo with what it
gives directly, having met the left-hand sides whose FOLLOW it takes
(`followSearch_leaves_both`), so that a search from the top finds FOLLOW
(`mem_followSearch_top`). It asks the context for FIRST, so it needs the context's answers
about FIRST to be exact, and keeps them so (`followSearch_context_both`).
-/

namespace SimpleLR

namespace Grammar

variable {g : Grammar}

/-! ## The least solution -/

/-- `g.LeastFollow b a`: `a` is in FOLLOW of `b`, in the least solution of the equations of
FOLLOW. -/
inductive LeastFollow (g : Grammar) : Symbol → Symbol → Prop
  | start : g.LeastFollow g.start endMarker
  | next {r : Rule} {pre post : List Symbol} {b y a : Symbol} : r ∈ g.rules →
      r.rhs = pre ++ b :: y :: post → g.LeastFirst y a → a ≠ epsilon → g.LeastFollow b a
  | through {r : Rule} {pre post : List Symbol} {b y a : Symbol} : r ∈ g.rules →
      r.rhs = pre ++ b :: y :: post → g.LeastFirst y epsilon → g.LeastFollow r.lhs a →
      g.LeastFollow b a
  | last {r : Rule} {pre : List Symbol} {b a : Symbol} : r ∈ g.rules → r.rhs = pre ++ [b] →
      g.LeastFollow r.lhs a → g.LeastFollow b a

theorem LeastFollow.ne_epsilon {b a : Symbol} (h : g.LeastFollow b a) : a ≠ epsilon := by
  induction h with
  | start => decide
  | next _ _ _ hne => exact hne
  | through _ _ _ _ ih => exact ih
  | last _ _ _ ih => exact ih

theorem mem_occurrences_some {b l y : Symbol} :
    (l, some y) ∈ g.occurrences b ↔
      ∃ r ∈ g.rules, r.lhs = l ∧ ∃ pre post, r.rhs = pre ++ b :: y :: post := by
  rw [mem_occurrences]
  simp only [mem_withNext_some_iff]

theorem mem_occurrences_none {b l : Symbol} :
    (l, none) ∈ g.occurrences b ↔ ∃ r ∈ g.rules, r.lhs = l ∧ ∃ pre, r.rhs = pre ++ [b] := by
  rw [mem_occurrences]
  simp only [mem_withNext_none_iff]

theorem LeastFollow.of_place {b l a : Symbol} {y : Option Symbol}
    (hplace : (l, y) ∈ g.occurrences b) (hthrough : y = none ∨ ∃ y', y = some y' ∧ g.LeastFirst y' epsilon)
    (h : g.LeastFollow l a) : g.LeastFollow b a := by
  rcases hthrough with rfl | ⟨y', rfl, hε⟩
  · obtain ⟨r, hr, rfl, pre, hrhs⟩ := mem_occurrences_none.1 hplace
    exact .last hr hrhs h
  · obtain ⟨r, hr, rfl, pre, post, hrhs⟩ := mem_occurrences_some.1 hplace
    exact .through hr hrhs hε h

theorem LeastFollow.of_next {b l y a : Symbol} (hplace : (l, some y) ∈ g.occurrences b)
    (ha : g.LeastFirst y a) (hne : a ≠ epsilon) : g.LeastFollow b a := by
  obtain ⟨r, hr, -, pre, post, hrhs⟩ := mem_occurrences_some.1 hplace
  exact .next hr hrhs ha hne

/-! ## What a search finds is in FOLLOW -/

/-- A place of a symbol, a rule's left-hand side and the symbol after, lets FOLLOW of the
left-hand side through: the place ends the rule, or the symbol after has `ε` in FIRST. -/
def PassesThrough (g : Grammar) (p : Symbol × Option Symbol) : Prop :=
  p.2 = none ∨ ∃ y, p.2 = some y ∧ g.LeastFirst y epsilon

/-- What a place `p` of a symbol gives its FOLLOW: FIRST of the symbol after, `ε` apart, or what
follows the left-hand side where the place lets it through. -/
def PlaceGives (g : Grammar) (p : Symbol × Option Symbol) (x : Symbol) : Prop :=
  (∃ y, p.2 = some y ∧ g.LeastFirst y x ∧ x ≠ epsilon) ∨ (g.PassesThrough p ∧ g.LeastFollow p.1 x)

theorem leastFollow_of_placeGives {a x : Symbol} {p : Symbol × Option Symbol}
    (hp : p ∈ g.occurrences a) (h : g.PlaceGives p x) : g.LeastFollow a x := by
  obtain ⟨l, y⟩ := p
  rcases h with ⟨y', rfl, hx, hne⟩ | ⟨hthrough, hx⟩
  · exact .of_next hp hx hne
  · exact .of_place hp hthrough hx

theorem mem_firstQuery_filter {c : LookaheadContext} (hc : g.FirstKept c) {y x : Symbol} :
    x ∈ (g.firstQuery c y).1.filter (· ≠ epsilon) ↔ g.LeastFirst y x ∧ x ≠ epsilon := by
  rw [List.mem_filter, mem_firstQuery hc, decide_eq_true_iff]

/-- Every set in the memo holds members of its symbol's FOLLOW only. -/
def FollowMemoSound (g : Grammar) (memo : Memo) : Prop :=
  ∀ e ∈ memo, ∀ a ∈ e.2, g.LeastFollow e.1 a

/-- The FOLLOW search changes the context only by asking it about FIRST: exact answers about
FIRST stay exact, and the answers about FOLLOW stay as they were. -/
theorem followSearch_context_both :
    (∀ a inProgress memo c,
      (g.FirstKept c → g.FirstKept (g.followSearch a inProgress memo c).2.2) ∧
        (g.followSearch a inProgress memo c).2.2.follow = c.follow) ∧
    (∀ a places h inProgress memo c out,
      (g.FirstKept c → g.FirstKept (g.followSearchAt a places h inProgress memo c out).2.2) ∧
        (g.followSearchAt a places h inProgress memo c out).2.2.follow = c.follow) := by
  apply followSearch.mutual_induct g
  case case1 =>
    intro a inProgress memo c ha
    rw [followSearch_of_mem ha]
    exact ⟨id, rfl⟩
  case case2 =>
    intro a inProgress memo c ha s hs
    rw [followSearch_of_lookup ha hs]
    exact ⟨id, rfl⟩
  case case3 =>
    intro a inProgress memo c ha hs ih
    rw [followSearch_of_fresh ha hs]
    exact ih
  case case4 =>
    intro a _ _ memo c out _
    rw [followSearchAt_nil]
    exact ⟨id, rfl⟩
  case case5 =>
    intro a rest inProgress memo c out h _ hrest _ ih
    rw [followSearchAt_last_self]
    exact ih
  case case6 =>
    intro a lhs rest inProgress memo c out h hne _ _ hrest _ ihl ih
    rw [followSearchAt_last hne]
    exact ⟨fun hc => ih.1 (ihl.1 hc), ih.2.trans ihl.2⟩
  case case7 =>
    intro a lhs rest inProgress memo c out y h _ _ hthrough _ _ hrest _ _ ihl ih
    rw [followSearchAt_through hthrough]
    exact ⟨fun hc => ih.1 (ihl.1 (firstKept_firstQuery hc y)),
      by rw [ih.2, ihl.2, follow_firstQuery]⟩
  case case8 =>
    intro a lhs rest inProgress memo c out y h _ _ hthrough _ hrest _ ih
    rw [followSearchAt_next hthrough]
    exact ⟨fun hc => ih.1 (firstKept_firstQuery hc y), by rw [ih.2, follow_firstQuery]⟩

/-- A search with exact answers about FIRST keeps the memo sound and finds members of FOLLOW
only; the loop over places adds only what a place gives. -/
theorem followSearch_sound_both :
    (∀ a inProgress memo c, g.FirstKept c → g.FollowMemoSound memo →
      g.FollowMemoSound (g.followSearch a inProgress memo c).2.1 ∧
        ∀ x ∈ (g.followSearch a inProgress memo c).1, g.LeastFollow a x) ∧
    (∀ a places h inProgress memo c out, g.FirstKept c → g.FollowMemoSound memo →
      g.FollowMemoSound (g.followSearchAt a places h inProgress memo c out).2.1 ∧
        ∀ x ∈ (g.followSearchAt a places h inProgress memo c out).1,
          x ∈ out ∨ ∃ p ∈ places, g.PlaceGives p x) := by
  apply followSearch.mutual_induct g
  case case1 =>
    intro a inProgress memo c ha _ hmemo
    rw [followSearch_of_mem ha]
    exact ⟨hmemo, by simp⟩
  case case2 =>
    intro a inProgress memo c ha s hs _ hmemo
    rw [followSearch_of_lookup ha hs]
    exact ⟨hmemo, hmemo (a, s) (mem_of_lookup hs)⟩
  case case3 =>
    intro a inProgress memo c ha hs ih hc hmemo
    rw [followSearch_of_fresh ha hs]
    simp only [dite_eq_ite] at ih
    obtain ⟨hmemo', hout⟩ := ih hc hmemo
    have ha' : ∀ x ∈ (g.followSearchAt a (g.occurrences a)
        (fun _ h => mem_leftSides_of_mem_occurrences h) (a :: inProgress) memo c
        (if a = g.start then [endMarker] else [])).1, g.LeastFollow a x := by
      intro x hx
      rcases hout x hx with hstart | ⟨p, hp, hgives⟩
      · by_cases hst : a = g.start
        · rw [if_pos hst, List.mem_singleton] at hstart
          rw [hstart, hst]
          exact .start
        · rw [if_neg hst] at hstart
          cases hstart
      · exact leastFollow_of_placeGives hp hgives
    refine ⟨fun e he => ?_, ha'⟩
    rcases List.mem_cons.1 he with rfl | he
    · exact ha'
    · exact hmemo' e he
  case case4 =>
    intro a _ _ memo c out _ _ hmemo
    rw [followSearchAt_nil]
    exact ⟨hmemo, fun x hx => .inl hx⟩
  case case5 =>
    intro a rest inProgress memo c out h _ hrest _ ih hc hmemo
    rw [followSearchAt_last_self]
    obtain ⟨hmemo', hout⟩ := ih hc hmemo
    exact ⟨hmemo', gives_cons hout fun x hx => .inl hx⟩
  case case6 =>
    intro a lhs rest inProgress memo c out h hne _ _ hrest _ ihl ih hc hmemo
    rw [followSearchAt_last hne]
    obtain ⟨hmemo₁, hl⟩ := ihl hc hmemo
    obtain ⟨hmemo₂, hout⟩ :=
      ih ((followSearch_context_both.1 lhs inProgress memo c).1 hc) hmemo₁
    refine ⟨hmemo₂, gives_cons hout fun x hx => ?_⟩
    rcases mem_unite.1 hx with hx | hx
    · exact .inl hx
    · exact .inr (.inr ⟨.inl rfl, hl x hx⟩)
  case case7 =>
    intro a lhs rest inProgress memo c out y h _ _ hthrough _ _ hrest _ _ ihl ih hc hmemo
    rw [followSearchAt_through hthrough]
    have hcf := firstKept_firstQuery hc y
    obtain ⟨hmemo₁, hl⟩ := ihl hcf hmemo
    obtain ⟨hmemo₂, hout⟩ :=
      ih ((followSearch_context_both.1 lhs inProgress memo _).1 hcf) hmemo₁
    have hε : g.LeastFirst y epsilon := (mem_firstQuery hc y epsilon).1 hthrough.1
    refine ⟨hmemo₂, gives_cons hout fun x hx => ?_⟩
    rcases mem_unite.1 hx with hx | hx
    · rcases mem_unite.1 hx with hx | hx
      · exact .inl hx
      · exact .inr (.inl ⟨y, rfl, (mem_firstQuery_filter hc).1 hx⟩)
    · exact .inr (.inr ⟨.inr ⟨y, rfl, hε⟩, hl x hx⟩)
  case case8 =>
    intro a lhs rest inProgress memo c out y h _ _ hthrough _ hrest _ ih hc hmemo
    rw [followSearchAt_next hthrough]
    obtain ⟨hmemo', hout⟩ := ih (firstKept_firstQuery hc y) hmemo
    refine ⟨hmemo', gives_cons hout fun x hx => ?_⟩
    rcases mem_unite.1 hx with hx | hx
    · exact .inl hx
    · exact .inr (.inl ⟨y, rfl, (mem_firstQuery_filter hc).1 hx⟩)

/-! ## What a search leaves for the question -/

/-- The FOLLOW search met `z`: it is in progress, or has its set in the memo. -/
def FollowMet (inProgress : List Symbol) (memo : Memo) (z : Symbol) : Prop :=
  z ∈ inProgress ∨ ∃ t, (z, t) ∈ memo

/-- A memo entry `(b, s)` left by a finished FOLLOW search: `s` holds the end marker when `b` is
the start and FIRST of each symbol after `b`, `ε` apart; and the search met the left-hand side
of each place of `b` that lets FOLLOW through, other than `b` itself. -/
structure FollowCovered (g : Grammar) (inProgress : List Symbol) (memo : Memo)
    (e : Symbol × List Symbol) : Prop where
  start : e.1 = g.start → endMarker ∈ e.2
  next : ∀ l y, (l, some y) ∈ g.occurrences e.1 → ∀ x, g.LeastFirst y x → x ≠ epsilon → x ∈ e.2
  through : ∀ p ∈ g.occurrences e.1, g.PassesThrough p → p.1 ≠ e.1 →
    FollowMet inProgress memo p.1

/-- What a search of FOLLOW that returned `r`, started with the memo `memo`, leaves. -/
def FollowLeaves (g : Grammar) (inProgress : List Symbol) (memo : Memo)
    (r : List Symbol × Memo × LookaheadContext) : Prop :=
  Grown (g.FollowCovered inProgress) memo r.1 r.2.1

section FollowMet

variable {inProgress : List Symbol} {memo memo' : Memo} {z : Symbol}

theorem FollowMet.mono (h : FollowMet inProgress memo z) (hmemo : ∀ e ∈ memo, e ∈ memo') :
    FollowMet inProgress memo' z := by
  rcases h with hz | ⟨t, ht⟩
  · exact .inl hz
  · exact .inr ⟨t, hmemo _ ht⟩

theorem FollowMet.pop {x : Symbol} (h : FollowMet (x :: inProgress) memo z)
    (hx : ∃ t, (x, t) ∈ memo) : FollowMet inProgress memo z := by
  rcases h with hz | hmemo
  · rcases List.mem_cons.1 hz with rfl | hz
    · exact .inr hx
    · exact .inl hz
  · exact .inr hmemo

theorem FollowCovered.mono {e : Symbol × List Symbol} (h : g.FollowCovered inProgress memo e)
    (hmemo : ∀ e ∈ memo, e ∈ memo') : g.FollowCovered inProgress memo' e :=
  ⟨h.start, h.next, fun p hp hpass hne => (h.through p hp hpass hne).mono hmemo⟩

theorem FollowCovered.pop {x : Symbol} {e : Symbol × List Symbol}
    (h : g.FollowCovered (x :: inProgress) memo e) (hx : ∃ t, (x, t) ∈ memo) :
    g.FollowCovered inProgress memo e :=
  ⟨h.start, h.next, fun p hp hpass hne => (h.through p hp hpass hne).pop hx⟩

end FollowMet

/-- A search with exact answers about FIRST leaves covered entries and meets the symbol it
searched; the loop over places keeps what it started with, adds FIRST of each symbol after,
`ε` apart, and meets the left-hand side of each place that lets FOLLOW through, other than the
symbol searched. -/
theorem followSearch_leaves_both :
    (∀ a inProgress memo c, g.FirstKept c →
      g.FollowLeaves inProgress memo (g.followSearch a inProgress memo c) ∧
        FollowMet inProgress (g.followSearch a inProgress memo c).2.1 a) ∧
    (∀ a places h inProgress memo c out, g.FirstKept c →
      g.FollowLeaves inProgress memo (g.followSearchAt a places h inProgress memo c out) ∧
        (∀ x ∈ out, x ∈ (g.followSearchAt a places h inProgress memo c out).1) ∧
        ∀ p ∈ places,
          (∀ y, p.2 = some y → ∀ x, g.LeastFirst y x → x ≠ epsilon →
            x ∈ (g.followSearchAt a places h inProgress memo c out).1) ∧
          (g.PassesThrough p → p.1 ≠ a →
            FollowMet inProgress (g.followSearchAt a places h inProgress memo c out).2.1 p.1)) := by
  apply followSearch.mutual_induct g
  case case1 =>
    intro a inProgress memo c ha _
    rw [followSearch_of_mem ha]
    exact ⟨grown_self _, .inl ha⟩
  case case2 =>
    intro a inProgress memo c ha s hs _
    rw [followSearch_of_lookup ha hs]
    exact ⟨grown_self _, .inr ⟨s, mem_of_lookup hs⟩⟩
  case case3 =>
    intro a inProgress memo c ha hs ih hc
    rw [followSearch_of_fresh ha hs]
    simp only [dite_eq_ite] at ih
    obtain ⟨⟨new, hr, hnew⟩, hkeep, hplaces⟩ := ih hc
    set r := g.followSearchAt a (g.occurrences a)
      (fun _ h => mem_leftSides_of_mem_occurrences h) (a :: inProgress) memo c
      (if a = g.start then [endMarker] else [])
    have ha_mem : ∃ t, (a, t) ∈ (a, r.1) :: r.2.1 := ⟨r.1, List.mem_cons_self⟩
    have hgrow : ∀ e ∈ r.2.1, e ∈ (a, r.1) :: r.2.1 := fun e he => List.mem_cons_of_mem _ he
    have hcov : g.FollowCovered inProgress ((a, r.1) :: r.2.1) (a, r.1) := by
      refine ⟨fun hst => hkeep _ ?_, fun l y hp x hx hne => (hplaces _ hp).1 y rfl x hx hne,
        fun p hp hpass hne => (((hplaces p hp).2 hpass hne).mono hgrow).pop ha_mem⟩
      rw [if_pos (show a = g.start from hst)]
      exact List.mem_singleton_self _
    refine ⟨⟨(a, r.1) :: new, by show (a, r.1) :: r.2.1 = _; rw [hr]; rfl, fun e he => ?_⟩,
      .inr ha_mem⟩
    rcases List.mem_cons.1 he with rfl | he
    · exact ⟨fun _ hx => hx, hcov⟩
    · obtain ⟨hset, hcov'⟩ := hnew e he
      exact ⟨hset, (hcov'.mono hgrow).pop ha_mem⟩
  case case4 =>
    intro a _ _ memo c out _ _
    rw [followSearchAt_nil]
    exact ⟨grown_self _, fun _ hx => hx, by simp⟩
  case case5 =>
    intro a rest inProgress memo c out h _ hrest _ ih hc
    rw [followSearchAt_last_self]
    obtain ⟨hleaves, hkeep, hplaces⟩ := ih hc
    refine ⟨hleaves, hkeep, List.forall_mem_cons.2 ⟨?_, hplaces⟩⟩
    exact ⟨fun y hy => (by cases hy), fun _ hne => absurd rfl hne⟩
  case case6 =>
    intro a lhs rest inProgress memo c out h hne _ _ hrest _ ihl ih hc
    rw [followSearchAt_last hne]
    obtain ⟨hleaves₁, hmet⟩ := ihl hc
    obtain ⟨hleaves₂, hkeep, hplaces⟩ :=
      ih ((followSearch_context_both.1 lhs inProgress memo c).1 hc)
    refine ⟨Grown.trans (fun h hm => h.mono hm) hleaves₁ hleaves₂
      fun x hx => hkeep x (mem_unite.2 (.inr hx)),
      fun x hx => hkeep x (mem_unite.2 (.inl hx)), List.forall_mem_cons.2 ⟨?_, hplaces⟩⟩
    exact ⟨fun y hy => (by cases hy), fun _ _ => hmet.mono (Grown.subset hleaves₂)⟩
  case case7 =>
    intro a lhs rest inProgress memo c out y h _ _ hthrough _ _ hrest _ _ ihl ih hc
    rw [followSearchAt_through hthrough]
    have hcf := firstKept_firstQuery hc y
    obtain ⟨hleaves₁, hmet⟩ := ihl hcf
    obtain ⟨hleaves₂, hkeep, hplaces⟩ :=
      ih ((followSearch_context_both.1 lhs inProgress memo _).1 hcf)
    refine ⟨Grown.trans (fun h hm => h.mono hm) hleaves₁ hleaves₂
      fun x hx => hkeep x (mem_unite.2 (.inr hx)),
      fun x hx => hkeep x (mem_unite.2 (.inl (mem_unite.2 (.inl hx)))),
      List.forall_mem_cons.2 ⟨?_, hplaces⟩⟩
    refine ⟨fun y' hy' x hx hne => ?_, fun _ _ => hmet.mono (Grown.subset hleaves₂)⟩
    cases hy'
    have hfirst := (mem_firstQuery_filter hc).2 ⟨hx, hne⟩
    exact hkeep x (mem_unite.2 (.inl (mem_unite.2 (.inr hfirst))))
  case case8 =>
    intro a lhs rest inProgress memo c out y h _ _ hthrough _ hrest _ ih hc
    rw [followSearchAt_next hthrough]
    obtain ⟨hleaves, hkeep, hplaces⟩ := ih (firstKept_firstQuery hc y)
    refine ⟨hleaves, fun x hx => hkeep x (mem_unite.2 (.inl hx)),
      List.forall_mem_cons.2 ⟨⟨fun y' hy' x hx hne => ?_, fun hpass hne => ?_⟩, hplaces⟩⟩
    · cases hy'
      exact hkeep x (mem_unite.2 (.inr ((mem_firstQuery_filter hc).2 ⟨hx, hne⟩)))
    · obtain ⟨y', hy', hε⟩ : ∃ y', some y = some y' ∧ g.LeastFirst y' epsilon :=
        hpass.resolve_left (by simp)
      cases hy'
      exact absurd ⟨(mem_firstQuery hc y epsilon).2 hε, hne⟩ hthrough

/-! ## The answer to a search from the top -/

theorem mem_of_followMet_top {out : List Symbol} {memo : Memo}
    (hmemo : ∀ e ∈ memo, (∀ a ∈ e.2, a ∈ out) ∧ g.FollowCovered [] memo e) {b a : Symbol}
    (hmet : FollowMet [] memo b) (h : g.LeastFollow b a) : a ∈ out := by
  have entry : ∀ {z}, FollowMet [] memo z → ∃ t, (z, t) ∈ memo :=
    fun hz => hz.resolve_left List.not_mem_nil
  induction h with
  | start =>
    obtain ⟨t, ht⟩ := entry hmet
    exact (hmemo _ ht).1 _ ((hmemo _ ht).2.start rfl)
  | next hr hrhs hy hne =>
    obtain ⟨t, ht⟩ := entry hmet
    exact (hmemo _ ht).1 _ ((hmemo _ ht).2.next _ _
      (mem_occurrences_some.2 ⟨_, hr, rfl, _, _, hrhs⟩) _ hy hne)
  | @through r _ _ b _ _ hr hrhs hε _ ih =>
    apply ih
    by_cases hl : r.lhs = b
    · rw [hl]
      exact hmet
    · obtain ⟨t, ht⟩ := entry hmet
      exact (hmemo _ ht).2.through _ (mem_occurrences_some.2 ⟨_, hr, rfl, _, _, hrhs⟩)
        (.inr ⟨_, rfl, hε⟩) hl
  | @last r _ b _ hr hrhs _ ih =>
    apply ih
    by_cases hl : r.lhs = b
    · rw [hl]
      exact hmet
    · obtain ⟨t, ht⟩ := entry hmet
      exact (hmemo _ ht).2.through _ (mem_occurrences_none.2 ⟨_, hr, rfl, _, hrhs⟩)
        (.inl rfl) hl

/-- A search of FOLLOW from an empty memo with nothing in progress, asking a context whose
answers about FIRST are exact, finds exactly FOLLOW. -/
theorem mem_followSearch_top {c : LookaheadContext} (hc : g.FirstKept c) {b a : Symbol} :
    a ∈ (g.followSearch b [] [] c).1 ↔ g.LeastFollow b a := by
  constructor
  · intro ha
    exact (followSearch_sound_both.1 b [] [] c hc (by simp [FollowMemoSound])).2 a ha
  · intro h
    obtain ⟨⟨new, hr, hnew⟩, hmet⟩ := followSearch_leaves_both.1 b [] [] c hc
    rw [List.append_nil] at hr
    exact mem_of_followMet_top (fun e he => hnew e (hr ▸ he)) hmet h

end Grammar

end SimpleLR
