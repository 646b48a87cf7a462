import SimpleLR.Analysis
import SimpleLR.Proofs.TableLayout
import SimpleLR.Proofs.Closure
/-!
# What the lookahead sets hold

FIRST of a symbol holds `ε` or symbols that the text does not define and that stand first in
some alternative (or are the symbol itself); FOLLOW holds the end marker or what FIRST gives to
a symbol standing after another in some alternative. So in a grammar read from text, where
`ε` stands alone in its alternative, FOLLOW holds only terminals and the end marker, and a
reduce never writes outside the action columns. The analysis reads FOLLOW from a table of the
left-hand sides, which holds what FOLLOW computes.

The main statements, `mem_follow_terminal` and `analyze_follow`.
-/

namespace SimpleLR

theorem reach_induction {α : Type} [DecidableEq α] {next : α → List α} {Q : α → Prop}
    (hstep : ∀ y, Q y → ∀ z ∈ next y, Q z) (remaining pending : List α)
    (hpending : ∀ x ∈ pending, Q x) : ∀ x ∈ reach next remaining pending, Q x := by
  fun_induction reach next remaining pending with
  | case1 => simp
  | case2 remaining pending node hfound ih =>
    -- the node visited is pending, and its successors join the pending nodes
    have hnode : Q node := hpending node (List.mem_of_find?_eq_some hfound)
    intro x hx
    rcases List.mem_cons.1 hx with rfl | hx
    · exact hnode
    · refine ih (fun y hy => ?_) x hx
      rcases List.mem_append.1 hy with hy | hy
      · exact hstep node hnode y hy
      · exact hpending y hy

theorem mem_withNext {l : List Symbol} {x y : Symbol} (h : (x, some y) ∈ withNext l) :
    ∃ pre post, l = pre ++ x :: y :: post := by
  induction l using withNext.induct with
  | case1 => simp [withNext] at h
  | case2 z => simp [withNext] at h
  | case3 a b rest ih =>
    simp only [withNext, List.mem_cons, Prod.mk.injEq, Option.some.injEq] at h
    rcases h with ⟨rfl, rfl⟩ | h
    · exact ⟨[], rest, rfl⟩
    · obtain ⟨pre, post, hl⟩ := ih h
      exact ⟨a :: pre, post, by rw [hl]; rfl⟩

namespace Grammar

variable {g : Grammar}

theorem mem_first {x a : Symbol} (ha : a ∈ g.first x) (hne : a ≠ epsilon) :
    g.defines a = false ∧
      (a = x ∨ ∃ r ∈ g.productions, r.rhs ≠ [epsilon] ∧ r.rhs.head? = some a) := by
  simp only [first, List.mem_eraseDups, List.mem_append, List.mem_filter, Bool.not_eq_true'] at ha
  rcases ha with ⟨hreach, hdef⟩ | hε
  · refine ⟨hdef, reach_induction
      (Q := fun y => y = x ∨ ∃ r ∈ g.productions, r.rhs ≠ [epsilon] ∧ r.rhs.head? = some y)
      ?_ _ [x] (by simp) a hreach⟩
    rintro y - z hz
    simp only [firstEdges, List.mem_filterMap] at hz
    obtain ⟨rhs, hrhs, hhead⟩ := hz
    obtain ⟨r, hr, -, rfl⟩ := mem_alternatives.1 hrhs
    split at hhead
    · cases hhead
    · exact .inr ⟨r, hr, ‹_›, hhead⟩
  · split at hε
    · exact absurd (List.mem_singleton.1 hε) hne
    · cases hε

theorem mem_followDirectWith {fst : Symbol → List Symbol} {b a : Symbol}
    (h : a ∈ g.followDirectWith fst b) :
    (b = g.start ∧ a = endMarker) ∨
      ∃ r ∈ g.rules, ∃ x y, (x, some y) ∈ withNext r.rhs ∧ a ∈ fst y ∧ a ≠ epsilon := by
  simp only [followDirectWith, List.mem_append, List.mem_flatMap] at h
  rcases h with h | ⟨⟨lhs, y⟩, hocc, hmem⟩
  · split at h
    · exact .inl ⟨‹_›, List.mem_singleton.1 h⟩
    · cases h
  · simp only [occurrences, List.mem_flatMap, List.mem_map, List.mem_filter, beq_iff_eq] at hocc
    obtain ⟨r, hr, ⟨x, y'⟩, ⟨hxy, -⟩, heq⟩ := hocc
    simp only [Prod.mk.injEq] at heq
    obtain ⟨-, rfl⟩ := heq
    cases y' with
    | none => cases hmem
    | some y =>
      simp only [List.mem_filter, bne_iff_ne, ne_eq] at hmem
      exact .inr ⟨r, hr, x, y, hxy, hmem.1, hmem.2⟩

theorem mem_followWith {fst : Symbol → List Symbol} {b a : Symbol}
    (h : a ∈ g.followWith fst b) :
    a = endMarker ∨
      ∃ r ∈ g.rules, ∃ x y, (x, some y) ∈ withNext r.rhs ∧ a ∈ fst y ∧ a ≠ epsilon := by
  simp only [followWith, List.mem_eraseDups, List.mem_flatMap] at h
  obtain ⟨c, -, hc⟩ := h
  rcases mem_followDirectWith hc with ⟨-, ha⟩ | h
  · exact .inl ha
  · exact .inr h

/-- In a well-formed grammar whose `ε` stands alone, FOLLOW holds only terminals and the end
marker. -/
theorem mem_follow_terminal (hwf : g.WellFormed)
    (hε : ∀ r ∈ g.productions, epsilon ∈ r.rhs → r.rhs = [epsilon]) {b a : Symbol}
    (h : a ∈ g.follow b) : a ∈ g.vocabulary.terminals ∨ a = endMarker := by
  rcases mem_followWith h with ha | ⟨r, hr, x, y, hxy, hfirst, hne⟩
  · exact .inr ha
  obtain ⟨pre, post, hrhs⟩ := mem_withNext hxy
  have hr' : r ∈ g.productions := by
    rcases List.mem_cons.1 hr with rfl | hr
    · have hlen := congrArg List.length hrhs
      simp [startRule] at hlen
      omega
    · exact hr
  have hnotε : epsilon ∉ r.rhs := by
    intro hmem
    have hlen := congrArg List.length ((hε r hr' hmem).symm.trans hrhs)
    simp at hlen
    omega
  have hrhs_a : ∃ r' ∈ g.productions, a ∈ r'.rhs := by
    rcases (mem_first hfirst hne).2 with rfl | ⟨r', hr'', -, hhead⟩
    · exact ⟨r, hr', by rw [hrhs]; simp⟩
    · exact ⟨r', hr'', List.mem_of_mem_head? hhead⟩
  obtain ⟨r', hr'', hmem⟩ := hrhs_a
  have hdef := (mem_first hfirst hne).1
  refine .inl (mem_terminals.2 ⟨⟨r', List.mem_cons_of_mem _ hr'', hmem⟩, ?_, hne, ?_⟩)
  · intro q hq hlhs
    rcases List.mem_cons.1 hq with rfl | hq
    · subst hlhs
      exact hwf.start_not_mem_rhs r' hr'' hmem
    · have : g.defines a = true := (defines_iff g a).2 ⟨q, hq, hlhs⟩
      rw [hdef] at this
      cases this
  · rintro rfl
    exact hwf.start_not_mem_rhs r' hr'' hmem

theorem lookup_map_pair {f : Symbol → List Symbol} {l : List Symbol} {x : Symbol}
    {v : List Symbol} (h : (l.map fun y => (y, f y)).lookup x = some v) : v = f x := by
  induction l with
  | nil => cases h
  | cons y l ih =>
    by_cases hxy : x = y
    · subst hxy
      simp only [List.map_cons, List.lookup_cons, beq_self_eq_true, Option.some.injEq] at h
      exact h.symm
    · have hb : (x == y) = false := by simpa using hxy
      simp only [List.map_cons, List.lookup_cons, hb] at h
      exact ih h

/-- The analysis reads FOLLOW from its table, which holds what FOLLOW computes. -/
theorem analyze_follow (g : Grammar) : g.analyze.follow = g.follow := by
  funext x
  have hfirst : g.firstFrom g.firstTable = g.first := funext g.firstFrom_firstTable
  show ((g.analyze.followTable.lookup x).getD (g.followWith (g.firstFrom g.firstTable) x)) = _
  rw [hfirst]
  cases h : g.analyze.followTable.lookup x with
  | none => rfl
  | some v =>
    have hv : v = g.followWith (g.firstFrom g.firstTable) x := lookup_map_pair h
    rw [hv, hfirst]
    rfl

end Grammar

end SimpleLR
