import SimpleLR.Proofs.LookaheadSets
import SimpleLR.Proofs.ConflictPolicy
/-!
# FIRST and FOLLOW by their rules

The textbook sets, each the least relation closed under its rules: `Nullable` for the symbols
that derive the empty string, `First` for the terminals that can begin what a symbol derives,
and `Follow` for the terminals, and the end marker, that can stand right after a symbol. Unlike
the lookahead sets that the tables are built from, they see through nullable symbols.

In a grammar without empty alternatives nothing is nullable, and there the two agree: the
worklist `reach` visits exactly the nodes reachable within its domain (`mem_reach_iff`), so
FIRST of a symbol of some alternative is `First` (`mem_first_iff`) and FOLLOW is `Follow`
(`mem_follow_iff`).

`SLR` is the SLR(1) condition of the automaton for given lookahead sets, and `slrCheck`
decides it for lookahead sets given as lists.
-/

namespace SimpleLR

section Reach

variable {α : Type} {next : α → List α}

theorem Reaches.mono_domain {domain domain' seeds : List α} (hsub : ∀ x ∈ domain, x ∈ domain')
    {x : α} (h : Reaches next domain seeds x) : Reaches next domain' seeds x := by
  induction h with
  | seed hd hs => exact .seed (hsub _ hd) hs
  | step _ hy hnext ih => exact .step ih (hsub _ hy) hnext

theorem Reaches.trans {domain seeds : List α} {y x : α} (hy : Reaches next domain seeds y)
    (h : Reaches next domain [y] x) : Reaches next domain seeds x := by
  induction h with
  | seed _ hs =>
    rw [List.mem_singleton.1 hs]
    exact hy
  | step _ hz hnext ih => exact .step ih hz hnext

theorem Reaches.visit [DecidableEq α] {remaining pending : List α} {node : α} (hnode : node ∈ pending) {x : α}
    (h : Reaches next remaining pending x) :
    x = node ∨ Reaches next (remaining.erase node) (next node ++ pending) x := by
  induction h with
  | @seed x hx hp =>
    by_cases hxn : x = node
    · exact .inl hxn
    · exact .inr (.seed ((List.mem_erase_of_ne hxn).2 hx) (List.mem_append_right _ hp))
  | @step x y _ hy hnext ih =>
    by_cases hyn : y = node
    · exact .inl hyn
    · have hy' := (List.mem_erase_of_ne hyn).2 hy
      rcases ih with rfl | ih
      · exact .inr (.seed hy' (List.mem_append_left _ hnext))
      · exact .inr (.step ih hy' hnext)

theorem Reaches.of_visit [DecidableEq α] {remaining pending : List α} {node : α} (hnode : node ∈ remaining)
    (hpend : node ∈ pending) {x : α}
    (h : Reaches next (remaining.erase node) (next node ++ pending) x) :
    Reaches next remaining pending x := by
  induction h with
  | seed hd hs =>
    rcases List.mem_append.1 hs with hs | hs
    · exact .step (.seed hnode hpend) (List.mem_of_mem_erase hd) hs
    · exact .seed (List.mem_of_mem_erase hd) hs
  | step _ hy hnext ih => exact .step ih (List.mem_of_mem_erase hy) hnext

/-- `reach` visits exactly the nodes reachable from the pending ones within the domain. -/
theorem mem_reach_iff [DecidableEq α] {remaining pending : List α} {x : α} :
    x ∈ reach next remaining pending ↔ Reaches next remaining pending x := by
  fun_induction reach next remaining pending with
  | case1 remaining pending hnone =>
    simp only [List.not_mem_nil, false_iff]
    intro h
    induction h with
    | seed hd hs =>
      have := List.find?_eq_none.1 hnone _ hs
      simp [hd] at this
    | step _ _ _ ih => exact ih
  | case2 remaining pending node hfound ih =>
    have hnode : node ∈ remaining := List.contains_iff_mem.1 (List.find?_some hfound)
    have hpend : node ∈ pending := List.mem_of_find?_eq_some hfound
    rw [List.mem_cons, ih]
    constructor
    · rintro (rfl | h)
      · exact .seed hnode hpend
      · exact h.of_visit hnode hpend
    · exact fun h => h.visit hpend

end Reach

namespace Grammar

/-- `g.Nullable x`: `x` derives the empty string. -/
inductive Nullable (g : Grammar) : Symbol → Prop
  | rule {r : Rule} : r ∈ g.rules → (∀ x ∈ r.body, g.Nullable x) → g.Nullable r.lhs

/-- `g.First x a`: the terminal `a`, a symbol that no rule defines, can begin a string that `x`
derives. -/
inductive First (g : Grammar) : Symbol → Symbol → Prop
  | terminal {a : Symbol} : (∀ r ∈ g.rules, r.lhs ≠ a) → g.First a a
  | rule {r : Rule} {pre post : List Symbol} {y a : Symbol} : r ∈ g.rules →
      r.body = pre ++ y :: post → (∀ x ∈ pre, g.Nullable x) → g.First y a → g.First r.lhs a

/-- `g.Follow b a`: the terminal or end marker `a` can stand right after `b`. The augmented start
is followed by the end marker; a symbol is followed by what can begin a symbol after it, past
nullable ones; and a symbol that ends a body, but for nullable ones, by what follows the rule's
left-hand side. -/
inductive Follow (g : Grammar) : Symbol → Symbol → Prop
  | start : g.Follow g.start endMarker
  | next {r : Rule} {pre mid post : List Symbol} {b y a : Symbol} : r ∈ g.rules →
      r.body = pre ++ b :: (mid ++ y :: post) → (∀ x ∈ mid, g.Nullable x) → g.First y a →
      g.Follow b a
  | last {r : Rule} {pre post : List Symbol} {b a : Symbol} : r ∈ g.rules →
      r.body = pre ++ b :: post → (∀ x ∈ post, g.Nullable x) → g.Follow r.lhs a → g.Follow b a

/-- No rule of the text has the empty alternative. -/
def EpsilonFree (g : Grammar) : Prop := ∀ r ∈ g.productions, r.rhs ≠ [epsilon]

instance (g : Grammar) : Decidable g.EpsilonFree :=
  inferInstanceAs (Decidable (∀ r ∈ g.productions, r.rhs ≠ [epsilon]))

/-- What a grammar read from text without empty alternatives guarantees of its rules, the
augmented one included: each body is the alternative as written, it is not empty, and it holds
neither `ε` nor the augmented start. -/
structure Nonerasing (g : Grammar) : Prop where
  wellFormed : g.WellFormed
  body_eq : ∀ r ∈ g.rules, r.body = r.rhs
  body_ne_nil : ∀ r ∈ g.rules, r.body ≠ []
  epsilon_not_mem : ∀ r ∈ g.rules, epsilon ∉ r.rhs
  start_not_mem : ∀ r ∈ g.rules, g.start ∉ r.rhs

theorem nonerasing_of_read {text : String} {g : Grammar} (hg : Grammar.read text = .ok g)
    (hfree : g.EpsilonFree) : g.Nonerasing := by
  have hwf := read_wellFormed hg
  have hrhs : ∀ r ∈ g.rules, r.rhs ≠ [epsilon] ∧ r.rhs ≠ [] := by
    intro r hr
    rcases List.mem_cons.1 hr with rfl | hr
    · simp [startRule, hwf.origin_ne_epsilon]
    · exact ⟨hfree r hr, read_rhs_ne_nil hg r hr⟩
  have hbody : ∀ r ∈ g.rules, r.body = r.rhs := fun r hr => if_neg (hrhs r hr).1
  refine ⟨hwf, hbody, fun r hr => (hbody r hr).symm ▸ (hrhs r hr).2, ?_, ?_⟩
  · intro r hr hmem
    rcases List.mem_cons.1 hr with rfl | hr
    · exact hwf.origin_ne_epsilon (List.mem_singleton.1 hmem).symm
    · exact hfree r hr (read_epsilon hg r hr hmem)
  · intro r hr hmem
    rcases List.mem_cons.1 hr with rfl | hr
    · exact hwf.start_ne_origin (List.mem_singleton.1 hmem)
    · exact hwf.start_not_mem_rhs r hr hmem

variable {g : Grammar}

theorem Nonerasing.not_nullable (hg : g.Nonerasing) {x : Symbol} : ¬ g.Nullable x := by
  intro h
  induction h with
  | @rule r hr _ ih =>
    obtain ⟨y, hy⟩ := List.exists_mem_of_ne_nil _ (hg.body_ne_nil r hr)
    exact ih y hy

theorem Nonerasing.eq_nil_of_nullable (hg : g.Nonerasing) {xs : List Symbol}
    (h : ∀ x ∈ xs, g.Nullable x) : xs = [] :=
  List.eq_nil_iff_forall_not_mem.2 fun x hx => hg.not_nullable (h x hx)

theorem Nonerasing.mem_productions (hg : g.Nonerasing) {r : Rule} (hr : r ∈ g.rules)
    (hlhs : ∃ q ∈ g.rules, r.lhs ∈ q.rhs) : r ∈ g.productions := by
  rcases List.mem_cons.1 hr with rfl | hr
  · obtain ⟨q, hq, hmem⟩ := hlhs
    exact absurd hmem (hg.start_not_mem q hq)
  · exact hr

/-! ## FIRST -/

theorem mem_mentioned {x : Symbol} : x ∈ g.mentioned ↔ ∃ r ∈ g.rules, x = r.lhs ∨ x ∈ r.rhs := by
  simp [mentioned]

theorem mem_firstEdges {x y : Symbol} :
    y ∈ g.firstEdges x ↔ ∃ r ∈ g.productions, r.lhs = x ∧ r.rhs ≠ [epsilon] ∧
      r.rhs.head? = some y := by
  simp only [firstEdges, List.mem_filterMap, mem_alternatives]
  constructor
  · rintro ⟨rhs, ⟨r, hr, hl, rfl⟩, hy⟩
    split at hy
    · cases hy
    · exact ⟨r, hr, hl, ‹_›, hy⟩
  · rintro ⟨r, hr, hl, hne, hy⟩
    exact ⟨r.rhs, ⟨r, hr, hl, rfl⟩, by rw [if_neg hne]; exact hy⟩

theorem mem_rhs_of_reaches_first {domain : List Symbol} {x z : Symbol}
    (h : Reaches g.firstEdges domain [x] z) : z = x ∨ ∃ r ∈ g.productions, z ∈ r.rhs := by
  induction h with
  | seed _ hs => exact .inl (List.mem_singleton.1 hs)
  | step _ _ hz _ =>
    obtain ⟨r, hr, -, -, hhead⟩ := mem_firstEdges.1 hz
    exact .inr ⟨r, hr, List.mem_of_mem_head? hhead⟩

theorem first_of_reaches (hg : g.Nonerasing) {domain : List Symbol} {x z : Symbol}
    (h : Reaches g.firstEdges domain [x] z) {a : Symbol} (ha : g.First z a) : g.First x a := by
  induction h generalizing a with
  | seed _ hs =>
    rw [← List.mem_singleton.1 hs]
    exact ha
  | @step w y _ _ hz ih =>
    obtain ⟨r, hr, rfl, -, hhead⟩ := mem_firstEdges.1 hz
    obtain ⟨post, hrhs⟩ : ∃ post, r.rhs = y :: post := List.head?_eq_some_iff.1 hhead
    have hbody : r.body = [] ++ y :: post := by
      rw [hg.body_eq r (List.mem_cons_of_mem _ hr), hrhs]
      rfl
    exact ih (First.rule (List.mem_cons_of_mem _ hr) hbody (by simp) ha)

theorem First.mem_rhs {x a : Symbol} (h : g.First x a) :
    a = x ∨ ∃ r ∈ g.rules, a ∈ r.body := by
  induction h with
  | terminal _ => exact .inl rfl
  | @rule r pre post y a hr hbody _ _ ih =>
    rcases ih with rfl | ih
    · exact .inr ⟨r, hr, by rw [hbody]; simp⟩
    · exact .inr ih

/-- In a grammar read from text without empty alternatives, FIRST of a symbol of an alternative
is what `First` says can begin it. -/
theorem mem_first_iff (hg : g.Nonerasing) {x a : Symbol} (hx : ∃ r ∈ g.rules, x ∈ r.rhs) :
    a ∈ g.first x ↔ g.First x a := by
  -- no symbol has the empty alternative, so FIRST holds only undefined symbols reached
  have hnoempty : ∀ y, g.hasEmpty y = false := by
    intro y
    simp only [hasEmpty, List.contains_eq_mem, decide_eq_false_iff_not, mem_alternatives]
    rintro ⟨r, hr, -, hrhs⟩
    exact hg.epsilon_not_mem r (List.mem_cons_of_mem _ hr) (by rw [hrhs]; simp)
  simp only [first, firstReach, List.any_eq_true, hnoempty, Bool.false_eq_true, and_false,
    exists_false, if_false, List.append_nil, List.mem_eraseDups, List.mem_filter,
    Bool.not_eq_true', mem_reach_iff]
  constructor
  · rintro ⟨hreach, hdef⟩
    apply first_of_reaches hg hreach
    apply First.terminal
    intro r hr hlhs
    rcases List.mem_cons.1 hr with rfl | hr
    · have ha : a = g.start := hlhs.symm
      subst ha
      rcases mem_rhs_of_reaches_first hreach with rfl | ⟨q, hq, hmem⟩
      · obtain ⟨q, hq, hmem⟩ := hx
        exact hg.start_not_mem q hq hmem
      · exact hg.start_not_mem q (List.mem_cons_of_mem _ hq) hmem
    · have : g.defines a = true := (defines_iff g a).2 ⟨r, hr, hlhs⟩
      rw [hdef] at this
      cases this
  · intro h
    induction h with
    | @terminal a ha =>
      refine ⟨.seed (List.mem_eraseDups.2 List.mem_cons_self) (List.mem_singleton_self _), ?_⟩
      cases hdef : g.defines a with
      | false => rfl
      | true =>
        obtain ⟨r, hr, hlhs⟩ := (defines_iff g a).1 hdef
        exact absurd hlhs (ha r (List.mem_cons_of_mem _ hr))
    | @rule r pre post y a hr hbody hpre _ ih =>
      obtain rfl := hg.eq_nil_of_nullable hpre
      have hprod := hg.mem_productions hr hx
      have hrhs : r.rhs = y :: post := (hg.body_eq r hr).symm.trans hbody
      have hy : y ∈ g.mentioned := mem_mentioned.2 ⟨r, hr, .inr (by simp [hrhs])⟩
      obtain ⟨hreach, hdef⟩ := ih ⟨r, hr, by simp [hrhs]⟩
      refine ⟨Reaches.trans ?_ (hreach.mono_domain ?_), hdef⟩
      · refine .step (.seed (List.mem_eraseDups.2 List.mem_cons_self) (List.mem_singleton_self _))
          (List.mem_eraseDups.2 (List.mem_cons_of_mem _ hy)) ?_
        refine mem_firstEdges.2 ⟨r, hprod, rfl, fun heq => ?_, by simp [hrhs]⟩
        exact hg.epsilon_not_mem r hr (by rw [heq]; simp)
      · intro z hz
        rcases List.mem_cons.1 (List.mem_eraseDups.1 hz) with rfl | hz
        · exact List.mem_eraseDups.2 (List.mem_cons_of_mem _ hy)
        · exact List.mem_eraseDups.2 (List.mem_cons_of_mem _ hz)

/-! ## FOLLOW -/

theorem withNext_cons_of_ne_nil {z : Symbol} {l : List Symbol} (hl : l ≠ []) :
    withNext (z :: l) = (z, l.head?) :: withNext l := by
  obtain ⟨w, rest, rfl⟩ := List.exists_cons_of_ne_nil hl
  rfl

theorem mem_withNext_some_iff {l : List Symbol} {x y : Symbol} :
    (x, some y) ∈ withNext l ↔ ∃ pre post, l = pre ++ x :: y :: post := by
  refine ⟨mem_withNext, ?_⟩
  rintro ⟨pre, post, rfl⟩
  induction pre with
  | nil => simp [withNext]
  | cons z pre ih =>
    rw [List.cons_append, withNext_cons_of_ne_nil (by simp)]
    exact List.mem_cons_of_mem _ ih

theorem mem_withNext_none_iff {l : List Symbol} {x : Symbol} :
    (x, none) ∈ withNext l ↔ ∃ pre, l = pre ++ [x] := by
  constructor
  · intro h
    induction l using withNext.induct with
    | case1 => simp [withNext] at h
    | case2 z =>
      simp only [withNext, List.mem_singleton, Prod.mk.injEq, and_true] at h
      exact ⟨[], by rw [h]; rfl⟩
    | case3 a b rest ih =>
      simp only [withNext, List.mem_cons, Prod.mk.injEq, reduceCtorEq, and_false,
        false_or] at h
      obtain ⟨pre, hpre⟩ := ih h
      exact ⟨a :: pre, by rw [hpre]; rfl⟩
  · rintro ⟨pre, rfl⟩
    induction pre with
    | nil => simp [withNext]
    | cons z pre ih =>
      rw [List.cons_append, withNext_cons_of_ne_nil (by simp)]
      exact List.mem_cons_of_mem _ ih

theorem mem_occurrences {b l : Symbol} {y : Option Symbol} :
    (l, y) ∈ g.occurrences b ↔ ∃ r ∈ g.rules, r.lhs = l ∧ (b, y) ∈ withNext r.rhs := by
  simp only [occurrences, List.mem_flatMap, List.mem_map, List.mem_filter, beq_iff_eq,
    Prod.mk.injEq]
  constructor
  · rintro ⟨r, hr, ⟨x, y'⟩, ⟨hmem, rfl⟩, hl, rfl⟩
    exact ⟨r, hr, hl, hmem⟩
  · rintro ⟨r, hr, hl, hmem⟩
    exact ⟨r, hr, (b, y), ⟨hmem, rfl⟩, hl, rfl⟩

theorem epsilon_not_mem_first (hg : g.Nonerasing) {x : Symbol} (hx : ∃ r ∈ g.rules, x ∈ r.rhs) :
    epsilon ∉ g.first x := by
  intro h
  obtain ⟨r, hr, hmem⟩ := hx
  rcases ((mem_first_iff hg ⟨r, hr, hmem⟩).1 h).mem_rhs with rfl | ⟨q, hq, hq'⟩
  · exact hg.epsilon_not_mem r hr hmem
  · exact hg.epsilon_not_mem q hq (hg.body_eq q hq ▸ hq')

theorem mem_followEdges (hg : g.Nonerasing) {b c : Symbol} :
    c ∈ g.followEdgesWith g.first b ↔ c ≠ b ∧ ∃ r ∈ g.rules, r.lhs = c ∧ ∃ pre, r.rhs = pre ++ [b] := by
  simp only [followEdgesWith, List.mem_filterMap]
  constructor
  · rintro ⟨⟨l, y⟩, hocc, hc⟩
    obtain ⟨r, hr, rfl, hmem⟩ := mem_occurrences.1 hocc
    split at hc
    · cases hc
    · cases y with
      | none =>
        cases hc
        exact ⟨‹_›, r, hr, rfl, mem_withNext_none_iff.1 hmem⟩
      | some y =>
        obtain ⟨pre, post, hrhs⟩ := mem_withNext_some_iff.1 hmem
        have hε : epsilon ∉ g.first y := epsilon_not_mem_first hg ⟨r, hr, by rw [hrhs]; simp⟩
        simp only [hε, if_false, reduceCtorEq] at hc
  · rintro ⟨hne, r, hr, rfl, pre, hrhs⟩
    refine ⟨(r.lhs, none), mem_occurrences.2 ⟨r, hr, rfl, mem_withNext_none_iff.2 ⟨pre, hrhs⟩⟩, ?_⟩
    rw [if_neg hne]

theorem mem_follow_iff_reaches {a b : Symbol} : a ∈ g.follow b ↔
    ∃ c, Reaches (g.followEdgesWith g.first) (b :: g.rules.map (·.lhs)).eraseDups [b] c ∧
      a ∈ g.followDirectWith g.first c := by
  simp [follow, followWith, List.mem_eraseDups, mem_reach_iff]

theorem follow_of_reaches (hg : g.Nonerasing) {domain : List Symbol} {b c a : Symbol}
    (h : Reaches (g.followEdgesWith g.first) domain [b] c) (ha : g.Follow c a) : g.Follow b a := by
  induction h with
  | seed _ hs =>
    rw [← List.mem_singleton.1 hs]
    exact ha
  | @step x z _ _ hz ih =>
    obtain ⟨-, r, hr, rfl, pre, hrhs⟩ := (mem_followEdges hg).1 hz
    have hbody : r.body = pre ++ x :: [] := (hg.body_eq r hr).trans hrhs
    exact ih (Follow.last hr hbody (by simp) ha)

theorem follow_of_mem_followDirect (hg : g.Nonerasing) {c a : Symbol}
    (h : a ∈ g.followDirectWith g.first c) : g.Follow c a := by
  simp only [followDirectWith, List.mem_append, List.mem_flatMap] at h
  rcases h with h | ⟨⟨l, y⟩, hocc, hmem⟩
  · split at h
    · rename_i hc
      rw [List.mem_singleton.1 h, hc]
      exact Follow.start
    · cases h
  · cases y with
    | none => cases hmem
    | some y =>
      simp only [List.mem_filter, bne_iff_ne, ne_eq] at hmem
      obtain ⟨r, hr, -, hwith⟩ := mem_occurrences.1 hocc
      obtain ⟨pre, post, hrhs⟩ := mem_withNext_some_iff.1 hwith
      have hbody : r.body = pre ++ c :: ([] ++ y :: post) := (hg.body_eq r hr).trans hrhs
      exact Follow.next hr hbody (by simp)
        ((mem_first_iff hg ⟨r, hr, by rw [hrhs]; simp⟩).1 hmem.1)

/-- In a grammar read from text without empty alternatives, FOLLOW is what `Follow` says can
stand after a symbol. -/
theorem mem_follow_iff (hg : g.Nonerasing) {a b : Symbol} : a ∈ g.follow b ↔ g.Follow b a := by
  constructor
  · intro h
    obtain ⟨c, hreach, hdirect⟩ := mem_follow_iff_reaches.1 h
    exact follow_of_reaches hg hreach (follow_of_mem_followDirect hg hdirect)
  · intro h
    induction h with
    | start =>
      refine mem_follow_iff_reaches.2 ⟨g.start, .seed (List.mem_eraseDups.2 List.mem_cons_self)
        (List.mem_singleton_self _), ?_⟩
      simp [followDirectWith]
    | @next r pre mid post b y a hr hbody hmid hfirst =>
      obtain rfl := hg.eq_nil_of_nullable hmid
      have hrhs : r.rhs = pre ++ b :: y :: post := (hg.body_eq r hr).symm.trans hbody
      have hy : ∃ q ∈ g.rules, y ∈ q.rhs := ⟨r, hr, by rw [hrhs]; simp⟩
      have ha : a ∈ g.first y := (mem_first_iff hg hy).2 hfirst
      refine mem_follow_iff_reaches.2 ⟨b, .seed (List.mem_eraseDups.2 List.mem_cons_self)
        (List.mem_singleton_self _), ?_⟩
      simp only [followDirectWith, List.mem_append, List.mem_flatMap]
      refine .inr ⟨(r.lhs, some y), mem_occurrences.2 ⟨r, hr, rfl,
        mem_withNext_some_iff.2 ⟨pre, post, hrhs⟩⟩, ?_⟩
      simp only [List.mem_filter, bne_iff_ne, ne_eq]
      exact ⟨ha, fun hε => epsilon_not_mem_first hg hy (hε ▸ ha)⟩
    | @last r pre post b a hr hbody hpost _ ih =>
      obtain rfl := hg.eq_nil_of_nullable hpost
      by_cases hlhs : r.lhs = b
      · exact hlhs ▸ ih
      obtain ⟨c, hreach, hdirect⟩ := mem_follow_iff_reaches.1 ih
      have hrhs : r.rhs = pre ++ [b] := (hg.body_eq r hr).symm.trans hbody
      have hlhs_mem : r.lhs ∈ (b :: g.rules.map (·.lhs)).eraseDups :=
        List.mem_eraseDups.2 (List.mem_cons_of_mem _ (List.mem_map_of_mem hr))
      have hedge : Reaches (g.followEdgesWith g.first) (b :: g.rules.map (·.lhs)).eraseDups [b]
          r.lhs :=
        .step (.seed (List.mem_eraseDups.2 List.mem_cons_self) (List.mem_singleton_self _))
          hlhs_mem ((mem_followEdges hg).2 ⟨hlhs, r, hr, rfl, pre, hrhs⟩)
      refine mem_follow_iff_reaches.2 ⟨c, hedge.trans (hreach.mono_domain ?_), hdirect⟩
      intro z hz
      rcases List.mem_cons.1 (List.mem_eraseDups.1 hz) with rfl | hz
      · exact hlhs_mem
      · exact List.mem_eraseDups.2 (List.mem_cons_of_mem _ hz)

theorem follow_eq_Follow (hg : g.Nonerasing) : (fun b a => a ∈ g.follow b) = g.Follow := by
  funext b a
  exact propext (mem_follow_iff hg)

/-! ## The SLR(1) condition -/

/-- The SLR(1) condition of the automaton of `g` for the lookaheads `look`, where `look A a` makes
`a` a lookahead of the finished items of `A`. In every state, of the finished items other than
the completed augmented item: no lookahead is a symbol that an item of the state moves over; the
end marker is none where the augmented item is completed; and no two share a lookahead. -/
structure SLR (g : Grammar) (look : Symbol → Symbol → Prop) : Prop where
  no_shift : ∀ st ∈ g.automaton.states, ∀ i ∈ st.items, i.atEnd = true → i ≠ g.acceptItem →
    ∀ a, look i.lhs a → ∀ j ∈ st.items, j.next? ≠ some a
  no_accept : ∀ st ∈ g.automaton.states, ∀ i ∈ st.items, i.atEnd = true → i ≠ g.acceptItem →
    look i.lhs endMarker → g.acceptItem ∉ st.items
  no_reduce : ∀ st ∈ g.automaton.states, ∀ i ∈ st.items, ∀ i' ∈ st.items, i.atEnd = true →
    i'.atEnd = true → i ≠ g.acceptItem → i' ≠ g.acceptItem → i ≠ i' → ∀ a, look i.lhs a →
    ¬ look i'.lhs a

/-- Whether the automaton of `g` meets the SLR(1) condition for lookaheads given as lists. -/
def slrCheck (g : Grammar) (look : Symbol → List Symbol) : Bool :=
  g.automaton.states.all fun st => st.items.all fun i =>
    !(i.atEnd && i != g.acceptItem) || (look i.lhs).all fun a =>
      st.items.all (fun j => j.next? != some a) &&
        (a != endMarker || !st.items.contains g.acceptItem) &&
        st.items.all fun i' =>
          !(i'.atEnd && i' != g.acceptItem && i' != i) || !(look i'.lhs).contains a

theorem slr_of_slrCheck {look : Symbol → List Symbol} (h : g.slrCheck look = true) :
    g.SLR fun b a => a ∈ look b := by
  simp only [slrCheck, List.all_eq_true, Bool.or_eq_true, Bool.and_eq_true, bne_iff_ne, ne_eq,
    Bool.and_eq_false_imp, List.contains_eq_mem, decide_eq_false_iff_not, Bool.not_eq_eq_eq_not,
    Bool.not_true] at h
  constructor
  · intro st hst i hi hend hne a ha j hj
    exact ((h st hst i hi).resolve_left (by simp [hend, hne]) a ha).1.1 j hj
  · intro st hst i hi hend hne ha
    have := ((h st hst i hi).resolve_left (by simp [hend, hne]) endMarker ha).1.2
    simpa using this
  · intro st hst i hi i' hi' hend hend' hne hne' hii' a ha
    have := ((h st hst i hi).resolve_left (by simp [hend, hne]) a ha).2 i' hi'
    simpa [hend', hne', Ne.symm hii'] using this

end Grammar

end SimpleLR
