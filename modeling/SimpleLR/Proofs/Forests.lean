import SimpleLR.Proofs.RecognizerSound
import SimpleLR.Proofs.FollowSets
/-!
# Derivation forests

`g.Generates Xs v ks`: a forest of derivation trees, one rooted at each symbol of `Xs`, yields
the terminals `v`, and `ks` numbers its rules in the order that a rightmost derivation applies
them. For `X :: Xs` that order derives `Xs` first, then rewrites `X` by the rule at its root, then
derives the body. A rightmost derivation of terminals is such a forest (`Derives.generates`).

In a grammar without empty alternatives every tree yields a terminal, and the first one can begin
the root (`Generates.exists_first`); so the terminal after the yield of a symbol in an alternative
can follow it (`Generates.follow_next`).
-/

namespace SimpleLR

namespace Grammar

/-- `g.Generates Xs v ks`: the symbols `Xs` derive the terminals `v` by the rules `ks`, in the order
of a rightmost derivation. -/
inductive Generates (g : Grammar) : List Symbol → List Symbol → List Nat → Prop
  | nil : g.Generates [] [] []
  | leaf {a : Symbol} {Xs v : List Symbol} {ks : List Nat} : (∀ r ∈ g.rules, r.lhs ≠ a) →
      g.Generates Xs v ks → g.Generates (a :: Xs) (a :: v) ks
  | node {k : Nat} {r : Rule} {Xs u v : List Symbol} {ks₁ ks₂ : List Nat} : g.rules[k]? = some r →
      g.Generates r.body u ks₁ → g.Generates Xs v ks₂ →
      g.Generates (r.lhs :: Xs) (u ++ v) (ks₂ ++ k :: ks₁)

variable {g : Grammar}

theorem Generates.append {Xs Ys v w : List Symbol} {ks ls : List Nat}
    (hX : g.Generates Xs v ks) (hY : g.Generates Ys w ls) :
    g.Generates (Xs ++ Ys) (v ++ w) (ls ++ ks) := by
  induction hX with
  | nil => simpa using hY
  | leaf ha _ ih => exact .leaf ha ih
  | @node k r Xs u v ks₁ ks₂ hr hbody _ _ ih =>
    have h := Generates.node hr hbody ih
    simp only [List.append_assoc] at h
    simpa [List.append_assoc] using h

theorem Generates.split {Xs Ys v : List Symbol} {ks : List Nat}
    (h : g.Generates (Xs ++ Ys) v ks) :
    ∃ v₁ v₂ ks₁ ks₂, v = v₁ ++ v₂ ∧ ks = ks₂ ++ ks₁ ∧ g.Generates Xs v₁ ks₁ ∧
      g.Generates Ys v₂ ks₂ := by
  induction Xs generalizing v ks with
  | nil => exact ⟨[], v, [], ks, rfl, by simp, .nil, h⟩
  | cons X Xs ih =>
    cases h with
    | leaf ha h =>
      obtain ⟨v₁, v₂, ks₁, ks₂, rfl, rfl, h₁, h₂⟩ := ih h
      exact ⟨X :: v₁, v₂, ks₁, ks₂, rfl, rfl, .leaf ha h₁, h₂⟩
    | @node k r _ u v ks₁ ks₂ hr hbody h =>
      obtain ⟨v₁, v₂, ls₁, ls₂, rfl, rfl, h₁, h₂⟩ := ih h
      exact ⟨u ++ v₁, v₂, ls₁ ++ k :: ks₁, ls₂, by simp, by simp, .node hr hbody h₁, h₂⟩

theorem Generates.of_terminals {w : List Symbol} (hw : ∀ a ∈ w, ∀ r ∈ g.rules, r.lhs ≠ a) :
    g.Generates w w [] := by
  induction w with
  | nil => exact .nil
  | cons a w ih =>
    exact .leaf (hw a List.mem_cons_self) (ih fun b hb => hw b (List.mem_cons_of_mem _ hb))

theorem Generates.eq_of_terminals {y v : List Symbol} {ks : List Nat} (h : g.Generates y v ks)
    (hy : ∀ b ∈ y, ∀ r ∈ g.rules, r.lhs ≠ b) : v = y ∧ ks = [] := by
  induction h with
  | nil => exact ⟨rfl, rfl⟩
  | leaf _ _ ih =>
    obtain ⟨rfl, rfl⟩ := ih fun b hb => hy b (List.mem_cons_of_mem _ hb)
    exact ⟨rfl, rfl⟩
  | node hr _ _ _ _ =>
    exact absurd rfl (hy _ List.mem_cons_self _ (List.mem_of_getElem? hr))

/-- A rightmost derivation of terminals is a derivation forest, with the same rules in the same
order. -/
theorem Derives.generates {α w : List Symbol} {ks : List Nat} (h : g.Derives α ks w)
    (hw : ∀ a ∈ w, ∀ r ∈ g.rules, r.lhs ≠ a) : g.Generates α w ks := by
  induction h with
  | refl w => exact .of_terminals hw
  | @step x y w k ks r hr hy _ ih =>
    obtain ⟨w₁, w₂, ks₁, ks₂, rfl, rfl, h₁, h₂⟩ := (ih hw).split
    obtain ⟨hw₂, hks₂⟩ := h₂.eq_of_terminals hy
    rw [hw₂, hks₂, List.nil_append]
    obtain ⟨w₀, wb, ks₀, kb, rfl, rfl, h₀, hb⟩ := h₁.split
    have hnode : g.Generates (r.lhs :: y) (wb ++ y) ([] ++ k :: kb) :=
      .node hr hb (.of_terminals hy)
    simpa [List.append_assoc] using h₀.append hnode

theorem Generates.nil_iff {v : List Symbol} {ks : List Nat} :
    g.Generates [] v ks ↔ v = [] ∧ ks = [] := by
  constructor
  · intro h
    cases h
    exact ⟨rfl, rfl⟩
  · rintro ⟨rfl, rfl⟩
    exact .nil

/-- In a grammar without empty alternatives, a tree yields a terminal first, and that terminal can
begin its root. -/
theorem Generates.exists_first (hg : g.Nonerasing) {Xs v : List Symbol} {ks : List Nat}
    (h : g.Generates Xs v ks) {X : Symbol} {Xs' : List Symbol} (hXs : Xs = X :: Xs') :
    ∃ a v', v = a :: v' ∧ g.First X a := by
  induction h generalizing X Xs' with
  | nil => cases hXs
  | @leaf a _ v _ ha _ _ =>
    obtain ⟨rfl, -⟩ := List.cons.inj hXs
    exact ⟨a, v, rfl, .terminal ha⟩
  | @node k r _ u v _ _ hr _ _ ihbody _ =>
    obtain ⟨rfl, -⟩ := List.cons.inj hXs
    have hr' : r ∈ g.rules := List.mem_of_getElem? hr
    obtain ⟨Y, Ys, hbody⟩ := List.exists_cons_of_ne_nil (hg.body_ne_nil r hr')
    obtain ⟨a, u', rfl, ha⟩ := ihbody hbody
    have hbody' : r.body = [] ++ Y :: Ys := hbody
    exact ⟨a, u' ++ v, rfl, .rule hr' hbody' (by simp) ha⟩

/-- In a grammar without empty alternatives, if `X` stands in a body before symbols that yield `v`
and `a` can follow the body's left-hand side, then the first symbol of `v ++ a :: rest` can
follow `X`. -/
theorem Generates.follow_next (hg : g.Nonerasing) {r : Rule} (hr : r ∈ g.rules)
    {pre Xs : List Symbol} {X : Symbol} (hbody : r.body = pre ++ X :: Xs) {v : List Symbol}
    {ks : List Nat} (h : g.Generates Xs v ks) {a : Symbol} (ha : g.Follow r.lhs a)
    (rest : List Symbol) : ∃ b rest', v ++ a :: rest = b :: rest' ∧ g.Follow X b := by
  cases Xs with
  | nil =>
    obtain ⟨rfl, -⟩ := Generates.nil_iff.1 h
    exact ⟨a, rest, rfl, .last hr hbody (by simp) ha⟩
  | cons Y Ys =>
    obtain ⟨b, v', rfl, hb⟩ := h.exists_first hg rfl
    have hbody' : r.body = pre ++ X :: ([] ++ Y :: Ys) := hbody
    exact ⟨b, v' ++ a :: rest, rfl, .next hr hbody' (by simp) hb⟩

end Grammar

end SimpleLR
