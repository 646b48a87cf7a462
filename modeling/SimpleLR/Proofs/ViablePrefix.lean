import SimpleLR.Proofs.ConflictPolicy
/-!
# Stacks of states spell viable prefixes

A stack of the recognizer, top first, is a path of the automaton from state 0: each state is
the one its neighbour below goes to on a symbol, and these symbols, read from the bottom, are
the prefix that the stack stands for. An item `A -> α · β` of the top state has `α` as the last
symbols of that prefix, and its dot-first form `A -> · α β` stands `|α|` places down
(`Path.item`). So a finished item of the top state can be reduced: the stack holds its body,
and the state uncovered by popping it predicts `A -> · α`, so it has a transition on `A`
(`Path.reduce`). The augmented start item `S' -> · S` stands only in state 0, which no
transition leads to, so the completed augmented item is on top only of a path that read the
start symbol of the text and nothing else (`Path.accept`).
-/

namespace SimpleLR

namespace Automaton

/-- `a.Path stack syms`: from state 0 the automaton goes through the states of `stack`, top
first, on the symbols `syms`, the last read first. -/
inductive Path (a : Automaton) : List Nat → List Symbol → Prop where
  | start : a.Path [0] []
  | step {s t : Nat} {below : List Nat} {x : Symbol} {xs : List Symbol} :
      a.Path (s :: below) xs → a.target? s x = some t → a.Path (t :: s :: below) (x :: xs)

variable {a : Automaton}

theorem Path.exists_cons {stack : List Nat} {syms : List Symbol} (h : a.Path stack syms) :
    ∃ s below, stack = s :: below := by
  cases h with
  | start => exact ⟨0, [], rfl⟩
  | step _ _ => exact ⟨_, _, rfl⟩

theorem Path.drop {stack : List Nat} {syms : List Symbol} (h : a.Path stack syms) {n : Nat}
    (hn : n ≤ syms.length) : a.Path (stack.drop n) (syms.drop n) := by
  induction h generalizing n with
  | start =>
    obtain rfl : n = 0 := by simpa using hn
    exact .start
  | step hp ht ih =>
    cases n with
    | zero => exact .step hp ht
    | succ m => exact ih (by simpa using hn)

theorem exists_state_of_target? {s t : Nat} {x : Symbol} (h : a.target? s x = some t) :
    ∃ st, a.states[s]? = some st := by
  obtain ⟨st, hst, -⟩ := Option.bind_eq_some_iff.1 h
  exact ⟨st, hst⟩

end Automaton

namespace Grammar

variable {g : Grammar}

theorem goto_of_target? {s t : Nat} {x : Symbol} (ht : g.automaton.target? s x = some t) :
    ∃ st₀ st next, g.automaton.states[s]? = some st₀ ∧ g.automaton.states[t]? = some st ∧
      g.goto? st₀.items x = some next ∧ ∀ y, y ∈ st.items ↔ y ∈ next := by
  obtain ⟨st₀, hs₀⟩ := Automaton.exists_state_of_target? ht
  obtain ⟨st, next, hst, hgoto, hsame⟩ := target?_goto? hs₀ ht
  exact ⟨st₀, st, next, hs₀, hst, hgoto, hsame⟩

theorem exists_state_of_path {s : Nat} {below : List Nat} {syms : List Symbol}
    (h : g.automaton.Path (s :: below) syms) : ∃ st, g.automaton.states[s]? = some st := by
  cases h with
  | start =>
    obtain ⟨st, hst, -⟩ := state_zero (g := g)
    exact ⟨st, hst⟩
  | step _ ht =>
    obtain ⟨-, st, -, -, hst, -⟩ := goto_of_target? ht
    exact ⟨st, hst⟩

theorem items_state_zero {st : State} (h : g.automaton.states[0]? = some st) :
    st.items = g.startItems := by
  obtain ⟨st₀, hst₀, hitems⟩ := state_zero (g := g)
  rw [h] at hst₀
  cases hst₀
  exact hitems

theorem initial_lhs_rhs {y : Item} (h : y.dot = 0) : Item.initial y.lhs y.rhs = y := by
  cases y
  cases h
  rfl

theorem next?_of_predicts_initial {j : Item} {b : Symbol} {rhs : List Symbol}
    (h : g.Predicts j (Item.initial b rhs)) : j.next? = some b := by
  obtain ⟨b', hb', rhs', -, heq⟩ := h
  have hlhs : b = b' := congrArg Item.lhs heq
  rw [hlhs]
  exact hb'

theorem initial_mem_state_cases {u : Nat} {st : State} (hst : g.automaton.states[u]? = some st)
    {y : Item} (hy : y ∈ st.items) (hdot : y.dot = 0) :
    y = Item.initial g.start [g.origin] ∨ ∃ j ∈ st.items, g.Predicts j y := by
  rcases state_discovered hst with rfl | ⟨i, -, st₀, x, -, -, hgoto⟩
  · rw [items_state_zero hst, startItems, mem_closure] at hy
    rw [items_state_zero hst, startItems]
    rcases hy with hy | hy
    · exact .inl (List.mem_singleton.1 hy)
    · exact .inr hy
  · rcases (mem_goto? hgoto).1 hy with ⟨i, -, -, rfl⟩ | hpred
    · simp [Item.advance] at hdot
    · exact .inr hpred

theorem initialStart_not_mem_goto? (hwf : g.WellFormed) {items next : List Item} {x : Symbol}
    (h : g.goto? items x = some next) : Item.initial g.start [g.origin] ∉ next := by
  intro hmem
  rcases (mem_goto? h).1 hmem with ⟨i, -, -, heq⟩ | ⟨j, -, b, -, rhs, hrhs, heq⟩
  · have := congrArg Item.dot heq
    simp [Item.initial, Item.advance] at this
  · have hb : g.start = b := congrArg Item.lhs heq
    obtain ⟨r, hr, hlhs, -⟩ := mem_alternatives.1 hrhs
    exact hwf.start_ne_lhs r hr (hlhs.trans hb.symm)

theorem WellFormed.rhs_eq_of_lhs_eq_start (hwf : g.WellFormed) {r : Rule} (hr : r ∈ g.rules)
    (hl : r.lhs = g.start) : r.rhs = [g.origin] := by
  rcases List.mem_cons.1 hr with rfl | hr
  · rfl
  · exact absurd hl (hwf.start_ne_lhs r hr)

theorem item_of_dot_eq_zero {stack : List Nat} {syms : List Symbol} {s : Nat} {below : List Nat}
    (hs : stack = s :: below) {st : State} (hst : g.automaton.states[s]? = some st) {y : Item}
    (hy : y ∈ st.items) (hdot : y.dot = 0) :
    y.dot ≤ syms.length ∧ (syms.take y.dot).reverse = y.body.take y.dot ∧
      ∃ u lower st', stack.drop y.dot = u :: lower ∧ g.automaton.states[u]? = some st' ∧
        Item.initial y.lhs y.rhs ∈ st'.items := by
  rw [hdot, initial_lhs_rhs hdot, hs]
  exact ⟨Nat.zero_le _, rfl, s, below, st, rfl, hst, hy⟩

/-- The state `|α|` places down a path holds the dot-first form of each item `A -> α · β` of
the top state, and the path read `α` last. -/
theorem Path.item {stack : List Nat} {syms : List Symbol} (hp : g.automaton.Path stack syms)
    {s : Nat} {below : List Nat} (hs : stack = s :: below) {st : State}
    (hst : g.automaton.states[s]? = some st) {y : Item} (hy : y ∈ st.items) :
    y.dot ≤ syms.length ∧ (syms.take y.dot).reverse = y.body.take y.dot ∧
      ∃ u lower st', stack.drop y.dot = u :: lower ∧ g.automaton.states[u]? = some st' ∧
        Item.initial y.lhs y.rhs ∈ st'.items := by
  induction hp generalizing s below st y with
  | start =>
    apply item_of_dot_eq_zero hs hst hy
    obtain ⟨rfl, rfl⟩ := List.cons.inj hs
    rw [items_state_zero hst, startItems, mem_closure] at hy
    rcases hy with hy | ⟨j, -, hpred⟩
    · rw [List.mem_singleton.1 hy]
      rfl
    · exact hpred.dot_eq_zero
  | step hp₀ ht ih =>
    obtain ⟨rfl, rfl⟩ := List.cons.inj hs
    obtain ⟨st₀, st', next, hs₀, hst', hgoto, hsame⟩ := goto_of_target? ht
    rw [hst] at hst'
    cases hst'
    rcases (mem_goto? hgoto).1 ((hsame y).1 hy) with ⟨i, hi, hnext, rfl⟩ | ⟨j, -, hpred⟩
    · -- `y` is an item `i` of the state below moved over the symbol read last
      obtain ⟨hle, htake, u, lower, stu, hdrop, hu, hinit⟩ := ih rfl hs₀ hi
      obtain ⟨hlt, hget⟩ := Item.next?_eq_some.1 hnext
      refine ⟨Nat.succ_le_succ hle, ?_, u, lower, stu, hdrop, hu, hinit⟩
      have hbody : i.advance.body = i.body := rfl
      rw [hbody, Item.advance, List.take_succ_cons, List.reverse_cons, htake,
        List.take_add_one, List.getElem?_eq_getElem hlt, hget]
      rfl
    · exact item_of_dot_eq_zero rfl hst hy hpred.dot_eq_zero

theorem Path.eq_start_of_initialStart (hwf : g.WellFormed) {stack : List Nat}
    {syms : List Symbol} (hp : g.automaton.Path stack syms) {u : Nat} {lower : List Nat}
    (hs : stack = u :: lower) {st : State} (hst : g.automaton.states[u]? = some st)
    (hmem : Item.initial g.start [g.origin] ∈ st.items) : stack = [0] ∧ syms = [] := by
  cases hp with
  | start => exact ⟨rfl, rfl⟩
  | step _ ht =>
    obtain ⟨rfl, rfl⟩ := List.cons.inj hs
    obtain ⟨_, st', next, -, hst', hgoto, hsame⟩ := goto_of_target? ht
    rw [hst] at hst'
    cases hst'
    exact absurd ((hsame _).1 hmem) (initialStart_not_mem_goto? hwf hgoto)

theorem exists_target?_of_initial {u : Nat} {st : State} (hst : g.automaton.states[u]? = some st)
    {b : Symbol} {rhs : List Symbol} (hmem : Item.initial b rhs ∈ st.items) (hb : b ≠ g.start) :
    ∃ n, g.automaton.target? u b = some n := by
  rcases initial_mem_state_cases hst hmem rfl with heq | ⟨j, hj, hpred⟩
  · exact absurd (congrArg Item.lhs heq) hb
  · exact Option.isSome_iff_exists.1
      ((isSome_target?_iff hst).2 ⟨j, hj, next?_of_predicts_initial hpred⟩)

/-- The completed augmented item stands on top only of the path that read the start symbol of
the text from state 0. -/
theorem Path.accept (hwf : g.WellFormed) {s : Nat} {below : List Nat} {syms : List Symbol}
    (hp : g.automaton.Path (s :: below) syms) {st : State}
    (hst : g.automaton.states[s]? = some st) (hacc : g.acceptItem ∈ st.items) :
    below = [0] ∧ syms = [g.origin] := by
  obtain ⟨hle, htake, u, lower, stu, hdrop, hu, hinit⟩ := Path.item hp rfl hst hacc
  have hdot : g.acceptItem.dot = 1 := rfl
  rw [hdot] at hle htake hdrop
  have hbelow : below = u :: lower := hdrop
  obtain ⟨hstack, hsyms⟩ := Path.eq_start_of_initialStart hwf (hp.drop hle) hdrop hu hinit
  rw [hdrop] at hstack
  refine ⟨hbelow.trans hstack, ?_⟩
  have hbody : g.acceptItem.body = [g.origin] := by
    simp [Item.body, bodyOf, acceptItem, hwf.origin_ne_epsilon]
  have hone : syms.take 1 = syms := by
    rw [← List.take_append_drop 1 syms, hsyms, List.append_nil, List.take_take, Nat.min_self]
  have hrev : (syms.take 1).reverse = [g.origin] := by
    rw [htake, hbody]
    rfl
  rw [hone] at hrev
  rw [← List.reverse_reverse syms, hrev]
  rfl

/-- A finished item of the top state other than the completed augmented item can be reduced:
the path read its body last, and the state uncovered by popping the body has a transition on
its left-hand side. -/
theorem Path.reduce (hwf : g.WellFormed) {stack : List Nat} {syms : List Symbol}
    (hp : g.automaton.Path stack syms) {s : Nat} {below : List Nat} (hs : stack = s :: below)
    {st : State} (hst : g.automaton.states[s]? = some st) {y : Item} (hy : y ∈ st.items)
    (hend : y.atEnd = true) (hne : y ≠ g.acceptItem) :
    y.body.length ≤ syms.length ∧ (syms.take y.body.length).reverse = y.body ∧
      ∃ u lower n, stack.drop y.body.length = u :: lower ∧
        g.automaton.target? u y.lhs = some n := by
  have hitem : g.ItemOf y := itemOf_of_mem_states (List.mem_of_getElem? hst) hy
  have hdot : y.dot = y.body.length := by
    obtain ⟨-, -, -, -, hle⟩ := hitem
    simp only [Item.atEnd, decide_eq_true_eq] at hend
    omega
  obtain ⟨r, hr, hrl, hrr, -⟩ := id hitem
  have hlhs : y.lhs ≠ g.start := by
    intro hl
    have hrhs : y.rhs = [g.origin] := hrr ▸ hwf.rhs_eq_of_lhs_eq_start hr (hrl.trans hl)
    exact hne ((eq_acceptItem_of_itemOf hwf.origin_ne_epsilon hitem hend).1 ⟨hl, hrhs⟩)
  obtain ⟨hle, htake, u, lower, stu, hdrop, hu, hinit⟩ := Path.item hp hs hst hy
  rw [hdot] at hle htake hdrop
  rw [List.take_length] at htake
  obtain ⟨n, hn⟩ := exists_target?_of_initial hu hinit hlhs
  exact ⟨hle, htake, u, lower, n, hdrop, hn⟩

end Grammar

end SimpleLR
