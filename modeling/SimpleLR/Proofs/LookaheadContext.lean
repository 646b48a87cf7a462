import SimpleLR.Proofs.FollowSearch
import SimpleLR.Proofs.LookaheadSets
import SimpleLR.Proofs.RecognizerSound
/-!
# What a lookahead context answers

A context keeps the answers it gave and answers again from them. A context whose kept answers
are all exact answers a question exactly and stays so (`kept_ask`); a fresh context keeps
nothing; so by induction over the questions asked (`kept_askAll`), every answer is the least
solution of its equations, whatever was asked before (`first_answer_least`,
`follow_answer_least`).

The analysis builds its sets with the worklist `reach` instead. Those are the least solutions
too (`mem_first_iff_leastFirst`, and `mem_follow_iff_leastFollow` here), so a context and the
analysis agree.
-/

namespace SimpleLR

namespace Grammar

variable {g : Grammar}

/-! ## The worklist of `Grammar.follow` -/

theorem mem_followEdgesWith_first {x y : Symbol} :
    y ∈ g.followEdgesWith g.first x ↔
      y ≠ x ∧ ∃ yo, (y, yo) ∈ g.occurrences x ∧ g.PassesThrough (y, yo) := by
  simp only [followEdgesWith, List.mem_filterMap, Prod.exists]
  constructor
  · rintro ⟨l, yo, hp, he⟩
    by_cases hl : l = x
    · simp [hl] at he
    · rw [if_neg hl] at he
      cases yo with
      | none =>
        simp only [Option.some.injEq] at he
        subst he
        exact ⟨hl, none, hp, .inl rfl⟩
      | some z =>
        simp only at he
        by_cases hz : epsilon ∈ g.first z
        · rw [if_pos hz, Option.some.injEq] at he
          subst he
          exact ⟨hl, some z, hp, .inr ⟨z, rfl, mem_first_iff_leastFirst.1 hz⟩⟩
        · rw [if_neg hz] at he
          cases he
  · rintro ⟨hne, yo, hp, hpass⟩
    refine ⟨y, yo, hp, ?_⟩
    rw [if_neg hne]
    rcases hpass with hnone | ⟨z, hz, hε⟩
    · simp only at hnone
      subst hnone
      rfl
    · simp only at hz
      subst hz
      simp only
      rw [if_pos (mem_first_iff_leastFirst.2 hε)]

theorem leastFollow_of_mem_followDirect {c a : Symbol}
    (h : a ∈ g.followDirectWith g.first c) : g.LeastFollow c a := by
  simp only [followDirectWith, List.mem_append, List.mem_flatMap, Prod.exists] at h
  rcases h with hstart | ⟨l, yo, hp, ha⟩
  · by_cases hc : c = g.start
    · rw [if_pos hc, List.mem_singleton] at hstart
      rw [hstart, hc]
      exact .start
    · rw [if_neg hc] at hstart
      cases hstart
  · cases yo with
    | none => cases ha
    | some y =>
      obtain ⟨hy, hne⟩ := List.mem_filter.1 ha
      exact .of_next hp (mem_first_iff_leastFirst.1 hy) (by simpa using hne)

theorem leastFollow_of_reaches {domain : List Symbol} {b c a : Symbol}
    (h : Reaches (g.followEdgesWith g.first) domain [b] c) (ha : g.LeastFollow c a) :
    g.LeastFollow b a := by
  induction h generalizing a with
  | seed _ hs =>
    rw [← List.mem_singleton.1 hs]
    exact ha
  | step _ _ hy ih =>
    obtain ⟨-, yo, hp, hpass⟩ := mem_followEdgesWith_first.1 hy
    exact ih (.of_place hp hpass ha)

theorem reaches_of_place {b l c : Symbol} {yo : Option Symbol} (hp : (l, yo) ∈ g.occurrences b)
    (hpass : g.PassesThrough (l, yo))
    (h : Reaches (g.followEdgesWith g.first) (l :: g.rules.map (·.lhs)).eraseDups [l] c) :
    Reaches (g.followEdgesWith g.first) (b :: g.rules.map (·.lhs)).eraseDups [b] c := by
  have hl : l ∈ g.rules.map (·.lhs) := mem_leftSides_of_mem_occurrences hp
  by_cases hlb : l = b
  · subst hlb
    exact h
  -- the domain from `l` lies within the domain from `b`, and `l` is one edge from `b`
  have hsub : ∀ w ∈ (l :: g.rules.map (·.lhs)).eraseDups,
      w ∈ (b :: g.rules.map (·.lhs)).eraseDups := by
    intro w hw
    rcases List.mem_cons.1 (List.mem_eraseDups.1 hw) with rfl | hw
    · exact List.mem_eraseDups.2 (List.mem_cons_of_mem _ hl)
    · exact List.mem_eraseDups.2 (List.mem_cons_of_mem _ hw)
  have hedge : Reaches (g.followEdgesWith g.first) (b :: g.rules.map (·.lhs)).eraseDups [b] l :=
    .step (.seed (List.mem_eraseDups.2 List.mem_cons_self) (List.mem_singleton_self _))
      (List.mem_eraseDups.2 (List.mem_cons_of_mem _ hl))
      (mem_followEdgesWith_first.2 ⟨hlb, yo, hp, hpass⟩)
  exact hedge.trans (h.mono_domain hsub)

theorem exists_reaches_of_leastFollow {b a : Symbol} (h : g.LeastFollow b a) :
    ∃ c, Reaches (g.followEdgesWith g.first) (b :: g.rules.map (·.lhs)).eraseDups [b] c ∧
      a ∈ g.followDirectWith g.first c := by
  have hseed : ∀ {x}, Reaches (g.followEdgesWith g.first) (x :: g.rules.map (·.lhs)).eraseDups
      [x] x :=
    .seed (List.mem_eraseDups.2 List.mem_cons_self) (List.mem_singleton_self _)
  induction h with
  | start => exact ⟨_, hseed, by simp [followDirectWith]⟩
  | next hr hrhs hy hne =>
    refine ⟨_, hseed, ?_⟩
    simp only [followDirectWith, List.mem_append, List.mem_flatMap]
    exact .inr ⟨(_, some _), mem_occurrences_some.2 ⟨_, hr, rfl, _, _, hrhs⟩,
      List.mem_filter.2 ⟨mem_first_iff_leastFirst.2 hy, by simpa using hne⟩⟩
  | through hr hrhs hε _ ih =>
    obtain ⟨c, hreach, ha⟩ := ih
    exact ⟨c, reaches_of_place (mem_occurrences_some.2 ⟨_, hr, rfl, _, _, hrhs⟩)
      (.inr ⟨_, rfl, hε⟩) hreach, ha⟩
  | last hr hrhs _ ih =>
    obtain ⟨c, hreach, ha⟩ := ih
    exact ⟨c, reaches_of_place (mem_occurrences_none.2 ⟨_, hr, rfl, _, hrhs⟩) (.inl rfl) hreach,
      ha⟩

/-- The worklist of `Grammar.follow` finds FOLLOW as well. -/
theorem mem_follow_iff_leastFollow {b a : Symbol} : a ∈ g.follow b ↔ g.LeastFollow b a := by
  rw [mem_follow_iff_reaches]
  constructor
  · rintro ⟨c, hreach, ha⟩
    exact leastFollow_of_reaches hreach (leastFollow_of_mem_followDirect ha)
  · exact exists_reaches_of_leastFollow

/-! ## A context that keeps exact answers -/

/-- Every answer about FOLLOW that a context keeps is exact. -/
def FollowKept (g : Grammar) (c : LookaheadContext) : Prop :=
  ∀ e ∈ c.follow, ∀ a, a ∈ e.2 ↔ g.LeastFollow e.1 a

/-- Every answer that a context keeps is exact. -/
structure Kept (g : Grammar) (c : LookaheadContext) : Prop where
  first : g.FirstKept c
  follow : g.FollowKept c

/-- The least solution that a question asks about. -/
def leastAnswer (g : Grammar) : LookaheadQuery → Symbol → Prop
  | .first x => g.LeastFirst x
  | .follow b => g.LeastFollow b

variable {c : LookaheadContext}

theorem kept_fresh (g : Grammar) : g.Kept LookaheadContext.fresh := by
  constructor <;> intro _ he <;> simp [LookaheadContext.fresh] at he

theorem kept_firstQuery (hc : g.Kept c) (x : Symbol) : g.Kept (g.firstQuery c x).2 := by
  refine ⟨firstKept_firstQuery hc.first x, ?_⟩
  rw [FollowKept, follow_firstQuery]
  exact hc.follow

theorem mem_followQuery (hc : g.Kept c) (b a : Symbol) :
    a ∈ (g.followQuery c b).1 ↔ g.LeastFollow b a := by
  unfold followQuery
  split
  · next s hs => exact hc.follow (b, s) (mem_of_lookup hs) a
  · exact mem_followSearch_top hc.first

theorem kept_followQuery (hc : g.Kept c) (b : Symbol) : g.Kept (g.followQuery c b).2 := by
  unfold followQuery
  split
  · exact hc
  · obtain ⟨hfirst, hfollow⟩ := followSearch_context_both.1 b [] [] c
    refine ⟨hfirst hc.first, fun e he a => ?_⟩
    rcases List.mem_cons.1 he with rfl | he
    · exact mem_followSearch_top hc.first
    · rw [hfollow] at he
      exact hc.follow e he a

/-- One question: a context that keeps exact answers gives the exact answer and still keeps
exact answers after it. -/
theorem kept_ask (hc : g.Kept c) (q : LookaheadQuery) :
    (∀ a, a ∈ (g.ask c q).1 ↔ g.leastAnswer q a) ∧ g.Kept (g.ask c q).2 := by
  cases q with
  | first x => exact ⟨mem_firstQuery hc.first x, kept_firstQuery hc x⟩
  | follow b => exact ⟨mem_followQuery hc b, kept_followQuery hc b⟩

/-- Questions in turn: each answer is exact, and the context still keeps exact answers. -/
theorem kept_askAll (hc : g.Kept c) (qs : List LookaheadQuery) :
    List.Forall₂ (fun q s => ∀ a, a ∈ s ↔ g.leastAnswer q a) qs (g.askAll c qs).1 ∧
      g.Kept (g.askAll c qs).2 := by
  induction qs generalizing c with
  | nil => exact ⟨.nil, hc⟩
  | cons q qs ih =>
    obtain ⟨hq, hc'⟩ := kept_ask hc q
    obtain ⟨hqs, hc''⟩ := ih hc'
    exact ⟨.cons hq hqs, hc''⟩

theorem kept_askAll_fresh (g : Grammar) (earlier : List LookaheadQuery) :
    g.Kept (g.askAll LookaheadContext.fresh earlier).2 :=
  (kept_askAll (kept_fresh g) earlier).2

/-! ## The answers -/

/-- FIRST, as a context answers it whatever was asked of it before, and as the analysis computes
it, is the least solution of its equations. -/
theorem first_answer_least (g : Grammar) (earlier : List LookaheadQuery) (x a : Symbol) :
    (a ∈ (g.ask (g.askAll LookaheadContext.fresh earlier).2 (.first x)).1 ↔ g.LeastFirst x a) ∧
      (a ∈ g.analyze.first x ↔ g.LeastFirst x a) := by
  have hc := kept_askAll_fresh g earlier
  refine ⟨(kept_ask hc (.first x)).1 a, ?_⟩
  rw [show g.analyze.first x = g.first x from g.firstFrom_firstTable x]
  exact mem_first_iff_leastFirst

/-- FOLLOW, as a context answers it whatever was asked of it before, and as the analysis computes
it, is the least solution of its equations; it never holds `ε`, and for a grammar read from text
it holds terminals and the end marker only. -/
theorem follow_answer_least (g : Grammar) (earlier : List LookaheadQuery) (b : Symbol) :
    (∀ a, a ∈ (g.ask (g.askAll LookaheadContext.fresh earlier).2 (.follow b)).1 ↔
      g.LeastFollow b a) ∧
    (∀ a, a ∈ g.analyze.follow b ↔ g.LeastFollow b a) ∧
    epsilon ∉ (g.ask (g.askAll LookaheadContext.fresh earlier).2 (.follow b)).1 ∧
    ∀ text, Grammar.read text = .ok g →
      ∀ a ∈ (g.ask (g.askAll LookaheadContext.fresh earlier).2 (.follow b)).1,
        a ∈ g.vocabulary.terminals ∨ a = endMarker := by
  have hc := kept_askAll_fresh g earlier
  have hanswer := (kept_ask hc (.follow b)).1
  have hanalyze : ∀ a, a ∈ g.analyze.follow b ↔ g.LeastFollow b a := by
    intro a
    rw [analyze_follow]
    exact mem_follow_iff_leastFollow
  refine ⟨hanswer, hanalyze, fun hε => ((hanswer _).1 hε).ne_epsilon rfl, ?_⟩
  intro text hread a ha
  have hf : a ∈ g.follow b := mem_follow_iff_leastFollow.2 ((hanswer a).1 ha)
  exact mem_follow_terminal (read_wellFormed hread) (read_epsilon hread) hf

/-- In the grammar of sums, FOLLOW of `T` asked of a fresh context holds terminals and the end
marker only. -/
theorem follow_answer_least_sums :
    Grammar.read "E -> E + T | T\nT -> id" = .ok sums ∧
      ∀ a ∈ (sums.ask (sums.askAll LookaheadContext.fresh []).2 (.follow "T")).1,
        a ∈ sums.vocabulary.terminals ∨ a = endMarker := by
  have hread : Grammar.read "E -> E + T | T\nT -> id" = .ok sums := by rfl
  exact ⟨hread, (follow_answer_least sums [] "T").2.2.2 _ hread⟩

end Grammar

end SimpleLR
