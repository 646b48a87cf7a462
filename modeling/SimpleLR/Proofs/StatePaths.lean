import SimpleLR.Proofs.AcceptCell
/-!
# Paths of the automaton and the items of their states

Along a path from state 0, an item `A -> α · β` of the last state has `α` as the symbols read
last; the state `|α|` places back holds `A -> · α β`, and unless `A` is the augmented start it
has a transition on `A` (`Path.item`, `exists_target?_of_initial`). No transition enters state 0,
whose start item no goto holds. All transitions into one state carry the same symbol: a goto on
`x` holds an item moved over `x`, and every item of it whose dot is not in front has `x` right
before the dot, so the items of a state name the one symbol that leads into it.

The main statement, `automaton_path_invariant`.
-/

namespace SimpleLR

namespace Grammar

variable {g : Grammar}

theorem getElem?_dot_pred_of_mem_goto? {items next : List Item} {x : Symbol}
    (h : g.goto? items x = some next) {y : Item} (hy : y ∈ next) (hdot : y.dot ≠ 0) :
    y.body[y.dot - 1]? = some x := by
  rcases (mem_goto? h).1 hy with ⟨i, -, hi, rfl⟩ | ⟨j, -, hpred⟩
  · show i.body[i.dot + 1 - 1]? = some x
    rw [Nat.add_sub_cancel]
    exact hi
  · exact absurd hpred.dot_eq_zero hdot

theorem exists_moved_mem_goto? {items next : List Item} {x : Symbol}
    (h : g.goto? items x = some next) : ∃ y ∈ next, y.dot ≠ 0 := by
  obtain ⟨⟨i, hi, hx⟩, rfl⟩ := goto?_eq_some.1 h
  exact ⟨i.advance, subset_closure (mem_moveOver.2 ⟨i, hi, hx, rfl⟩), Nat.succ_ne_zero _⟩

theorem eq_of_target?_eq_some {s s' t : Nat} {x x' : Symbol}
    (ht : g.automaton.target? s x = some t) (ht' : g.automaton.target? s' x' = some t) :
    x = x' := by
  obtain ⟨st₀, st, next, -, hst, hgoto, hsame⟩ := goto_of_target? ht
  obtain ⟨st₀', st', next', -, hst', hgoto', hsame'⟩ := goto_of_target? ht'
  rw [hst, Option.some.injEq] at hst'
  subst hst'
  -- an item moved over `x` stands in the state, and there its dot also follows `x'`
  obtain ⟨y, hy, hdot⟩ := exists_moved_mem_goto? hgoto
  have hx := getElem?_dot_pred_of_mem_goto? hgoto hy hdot
  have hx' := getElem?_dot_pred_of_mem_goto? hgoto' ((hsame' y).1 ((hsame y).2 hy)) hdot
  exact Option.some.inj (hx.symm.trans hx')

/-- For every grammar read from text and every path `0 = s₀ -X₁-> s₁ ... -Xₙ-> sₙ` of its
automaton (the stack `sₙ :: … :: s₀` with the symbols `Xₙ :: … :: X₁`), each item `A -> α · β`
of `sₙ` has `α` as the last `|α|` symbols `X`, the state `|α|` places back holds `A -> · α β`,
and that state has a transition on `A` unless `A` is the augmented start. No transition enters
state 0, and all transitions into a state carry the same symbol. -/
theorem automaton_path_invariant {text : String} {g : Grammar} (hg : Grammar.read text = .ok g) :
    (∀ (s : Nat) (below : List Nat) (syms : List Symbol) (st : State),
      g.automaton.Path (s :: below) syms → g.automaton.states[s]? = some st →
      ∀ y ∈ st.items, y.dot ≤ syms.length ∧ (syms.take y.dot).reverse = y.body.take y.dot ∧
        ∃ u lower st', (s :: below).drop y.dot = u :: lower ∧
          g.automaton.states[u]? = some st' ∧ Item.initial y.lhs y.rhs ∈ st'.items ∧
          (y.lhs ≠ g.start → ∃ n, g.automaton.target? u y.lhs = some n)) ∧
      (∀ s x, g.automaton.target? s x ≠ some 0) ∧
      (∀ (s s' t : Nat) (x x' : Symbol), g.automaton.target? s x = some t →
        g.automaton.target? s' x' = some t → x = x') := by
  refine ⟨fun s below syms st hp hst y hy => ?_, target?_ne_zero (read_wellFormed hg),
    fun s s' t x x' => eq_of_target?_eq_some⟩
  obtain ⟨hle, htake, u, lower, st', hdrop, hu, hinit⟩ := Path.item hp rfl hst hy
  exact ⟨hle, htake, u, lower, st', hdrop, hu, hinit, exists_target?_of_initial hu hinit⟩

/-- The grammar of sums of identifiers is read from its text, and its automaton has the path
invariant. -/
theorem automaton_path_invariant_sums :
    Grammar.read "E -> E + T | T\nT -> id" = .ok sums ∧
      (∀ (s : Nat) (below : List Nat) (syms : List Symbol) (st : State),
        sums.automaton.Path (s :: below) syms → sums.automaton.states[s]? = some st →
        ∀ y ∈ st.items, y.dot ≤ syms.length ∧ (syms.take y.dot).reverse = y.body.take y.dot ∧
          ∃ u lower st', (s :: below).drop y.dot = u :: lower ∧
            sums.automaton.states[u]? = some st' ∧ Item.initial y.lhs y.rhs ∈ st'.items ∧
            (y.lhs ≠ sums.start → ∃ n, sums.automaton.target? u y.lhs = some n)) ∧
        (∀ s x, sums.automaton.target? s x ≠ some 0) ∧
        (∀ (s s' t : Nat) (x x' : Symbol), sums.automaton.target? s x = some t →
          sums.automaton.target? s' x' = some t → x = x') := by
  have hread : Grammar.read "E -> E + T | T\nT -> id" = .ok sums := by rfl
  exact ⟨hread, automaton_path_invariant hread⟩

end Grammar

end SimpleLR
