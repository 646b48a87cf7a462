import SimpleLR.Proofs.FirstSearch
import Mathlib.Logic.Relation
/-!
# The nullable non-terminals of the analysis

The analysis lists as nullable the non-terminals whose FIRST holds `ε`. FIRST looks only at the
first symbol of each alternative, so `ε` is in FIRST of `A` exactly when a chain of first symbols
leads from `A` to a non-terminal with the empty alternative (`leastFirst_epsilon_iff`). Every
non-terminal that derives the empty string is listed (`leastFirst_epsilon_of_nullable`), but
not only those: in `S -> A b`, `A -> ε` the chain `S`, `A` ends at the empty alternative although
`S` derives only `b` (`nullable_lists_leadingEmpty`).
-/

namespace SimpleLR

namespace Grammar

variable {g : Grammar}

/-- `g.LeadsTo x y`: a chain of first symbols leads from `x` to `y`, each the first symbol of an
alternative, not the empty one, of the one before. -/
def LeadsTo (g : Grammar) : Symbol → Symbol → Prop :=
  Relation.ReflTransGen fun x y => ∃ rhs ∈ g.alternatives x, rhs ≠ [epsilon] ∧ rhs.head? = some y

theorem leastFirst_epsilon_of_leadsTo {x y : Symbol} (h : g.LeadsTo x y)
    (hy : [epsilon] ∈ g.alternatives y) : g.LeastFirst x epsilon := by
  induction h using Relation.ReflTransGen.head_induction_on with
  | refl => exact .empty hy
  | head hstep _ ih =>
    obtain ⟨rhs, hrhs, hne, hhead⟩ := hstep
    exact .head hrhs hne hhead ih

theorem leadsTo_of_leastFirst_epsilon
    (hε : ∀ r ∈ g.productions, epsilon ∈ r.rhs → r.rhs = [epsilon]) {x : Symbol}
    (h : g.LeastFirst x epsilon) (hx : x ≠ epsilon) :
    ∃ y, g.LeadsTo x y ∧ [epsilon] ∈ g.alternatives y := by
  generalize ha : epsilon = a at h
  induction h with
  | undefined _ => exact absurd ha.symm hx
  | empty hempty => exact ⟨_, .refl, hempty⟩
  | @head x z a rhs hrhs hne hz _ ih =>
    have hzε : z ≠ epsilon := by
      rintro rfl
      obtain ⟨r, hr, -, rfl⟩ := mem_alternatives.1 hrhs
      exact hne (hε r hr (List.mem_of_mem_head? hz))
    obtain ⟨y, hzy, hy⟩ := ih hzε ha
    exact ⟨y, .head ⟨rhs, hrhs, hne, hz⟩ hzy, hy⟩

theorem leastFirst_epsilon_iff (hε : ∀ r ∈ g.productions, epsilon ∈ r.rhs → r.rhs = [epsilon])
    {x : Symbol} (hx : x ≠ epsilon) :
    g.LeastFirst x epsilon ↔ ∃ y, g.LeadsTo x y ∧ [epsilon] ∈ g.alternatives y :=
  ⟨fun h => leadsTo_of_leastFirst_epsilon hε h hx, fun ⟨_, hxy, hy⟩ =>
    leastFirst_epsilon_of_leadsTo hxy hy⟩

/-- Every symbol other than the augmented start that derives the empty string has `ε` in its
FIRST: the first symbol of a nullable alternative is itself nullable. -/
theorem leastFirst_epsilon_of_nullable {text : String} (hg : Grammar.read text = .ok g)
    {x : Symbol} (h : g.Nullable x) (hx : x ≠ g.start) : g.LeastFirst x epsilon := by
  have hwf := read_wellFormed hg
  induction h with
  | @rule r hr _ ih =>
    have hr' : r ∈ g.productions := by
      rcases List.mem_cons.1 hr with rfl | hr
      · exact absurd rfl hx
      · exact hr
    have halt : r.rhs ∈ g.alternatives r.lhs := mem_alternatives.2 ⟨r, hr', rfl, rfl⟩
    by_cases hempty : r.rhs = [epsilon]
    · exact .empty (hempty ▸ halt)
    · obtain ⟨y, rest, hrhs⟩ := List.exists_cons_of_ne_nil (read_rhs_ne_nil hg r hr')
      have hbody : r.body = r.rhs := by simp [Rule.body, bodyOf, hempty]
      have hy : y ∈ r.body := by simp [hbody, hrhs]
      have hystart : y ≠ g.start := by
        rintro rfl
        exact hwf.start_not_mem_rhs r hr' (by simp [hrhs])
      exact .head halt hempty (by simp [hrhs]) (ih y hy hystart)

theorem mem_nullable_iff {x : Symbol} :
    x ∈ g.analyze.nullable ↔ x ∈ g.vocabulary.nonterminals ∧ g.LeastFirst x epsilon := by
  have hfirst : g.analyze.first x = g.first x := g.firstFrom_firstTable x
  have hvoc : g.analyze.vocabulary = g.vocabulary := rfl
  simp only [Analysis.nullable, List.mem_filter, List.contains_iff_mem]
  rw [hfirst, hvoc, mem_first_iff_leastFirst]

theorem Nullable.exists_rule {x : Symbol} (h : g.Nullable x) :
    ∃ r ∈ g.rules, r.lhs = x ∧ ∀ y ∈ r.body, g.Nullable y := by
  cases h with
  | rule hr hbody => exact ⟨_, hr, rfl, hbody⟩

/-! ## What the analysis lists -/

/-- The analysis lists as nullable, in the order of the non-terminals, exactly the non-terminals
from which a chain of first symbols leads to the empty alternative; every non-terminal that
derives the empty string is among them. -/
theorem nullable_leads_to_empty {text : String} (h : Grammar.read text = .ok g) :
    g.analyze.nullable.Sublist g.vocabulary.nonterminals ∧
    (∀ x, x ∈ g.analyze.nullable ↔
      x ∈ g.vocabulary.nonterminals ∧ ∃ y, g.LeadsTo x y ∧ [epsilon] ∈ g.alternatives y) ∧
    ∀ x ∈ g.vocabulary.nonterminals, g.Nullable x → x ∈ g.analyze.nullable := by
  have hne : ∀ x ∈ g.vocabulary.nonterminals, x ≠ epsilon := by
    intro x hx
    obtain ⟨⟨r, hr, rfl⟩, hstart⟩ := mem_nonterminals.1 hx
    rcases List.mem_cons.1 hr with rfl | hr
    · exact absurd rfl hstart
    · exact (read_wellFormed h).lhs_ne_epsilon r hr
  refine ⟨List.filter_sublist, fun x => ?_, fun x hx hnull => ?_⟩
  · rw [mem_nullable_iff]
    exact and_congr_right fun hx => leastFirst_epsilon_iff (read_epsilon h) (hne x hx)
  · exact mem_nullable_iff.2 ⟨hx, leastFirst_epsilon_of_nullable h hnull (mem_nonterminals.1 hx).2⟩

/-- The grammar `S -> A b`, `A -> ε`: the first symbol of `S` derives the empty string, the
second does not. -/
def leadingEmpty : Grammar :=
  ⟨"S", "S'", [⟨"S", ["A", "b"], some 1⟩, ⟨"A", [epsilon], some 2⟩]⟩

/-- In `S -> A b`, `A -> ε` the chain `S`, `A` ends at the empty alternative, so `S` is listed
as nullable. -/
theorem nullable_leads_to_empty_leadingEmpty :
    Grammar.read "S -> A b\nA -> ε" = .ok leadingEmpty ∧ "S" ∈ leadingEmpty.analyze.nullable := by
  have hread : Grammar.read "S -> A b\nA -> ε" = .ok leadingEmpty := by rfl
  have hstep : leadingEmpty.LeadsTo "S" "A" :=
    .single ⟨["A", "b"], by decide, by decide, rfl⟩
  exact ⟨hread, ((nullable_leads_to_empty hread).2.1 "S").2 ⟨by decide, "A", hstep, by decide⟩⟩

/-- In `S -> A b`, `A -> ε` the analysis lists `S` as nullable, although every string that `S`
derives holds `b`. -/
theorem nullable_lists_leadingEmpty :
    Grammar.read "S -> A b\nA -> ε" = .ok leadingEmpty ∧
      "S" ∈ leadingEmpty.vocabulary.nonterminals ∧ "S" ∈ leadingEmpty.analyze.nullable ∧
      ¬ leadingEmpty.Nullable "S" := by
  have hS : "S" ∈ leadingEmpty.vocabulary.nonterminals := by decide
  refine ⟨by rfl, hS, mem_nullable_iff.2 ⟨hS, ?_⟩, fun hnull => ?_⟩
  · exact .head (show ["A", "b"] ∈ leadingEmpty.alternatives "S" by decide) (by decide) rfl
      (.empty (by decide))
  · -- the only rule for `S` is `S -> A b`, and no rule derives `b`
    obtain ⟨r, hr, hlhs, hbody⟩ := hnull.exists_rule
    have hr' : r = ⟨"S", ["A", "b"], some 1⟩ := by
      simp only [leadingEmpty, rules, startRule, List.mem_cons, List.not_mem_nil, or_false] at hr
      rcases hr with rfl | rfl | rfl
      · simp at hlhs
      · rfl
      · simp at hlhs
    subst hr'
    obtain ⟨q, hq, hql, -⟩ := (hbody "b" (by decide)).exists_rule
    simp only [leadingEmpty, rules, startRule, List.mem_cons, List.not_mem_nil, or_false] at hq
    rcases hq with rfl | rfl | rfl <;> simp at hql

end Grammar

end SimpleLR
