import SimpleLR.Proofs.RecognizerSound
/-!
# Accept stands in one cell

The augmented start `S'` is a name that no rule of the text uses, so the start item `S' -> · S`
stands in state 0 only and no transition leads back to state 0. State 0 goes on the start
symbol `S` of the text to one state; the completed augmented item `S' -> S ·` stands in that
state and in no other, and the table accepts in that state's end-marker column and nowhere
else: a shift needs a terminal column, and a reduce never overwrites accept.

The main statement, `accept_cell_unique`.
-/

namespace SimpleLR

namespace Grammar

variable {g : Grammar}

theorem initialStart_mem_startItems : Item.initial g.start [g.origin] ∈ g.startItems :=
  subset_closure (List.mem_singleton_self _)

theorem initialStart_next? (hwf : g.WellFormed) :
    (Item.initial g.start [g.origin]).next? = some g.origin := by
  simp [Item.next?, Item.body, Item.initial, bodyOf, hwf.origin_ne_epsilon]

theorem eq_zero_of_initialStart_mem (hwf : g.WellFormed) {u : Nat} {st : State}
    (hst : g.automaton.states[u]? = some st) (hmem : Item.initial g.start [g.origin] ∈ st.items) :
    u = 0 := by
  rcases state_discovered hst with h0 | ⟨i, -, st₀, x, -, -, hgoto⟩
  · exact h0
  · exact absurd hmem (initialStart_not_mem_goto? hwf hgoto)

theorem exists_target?_origin (hwf : g.WellFormed) :
    ∃ t, g.automaton.target? 0 g.origin = some t := by
  obtain ⟨st, hst, hitems⟩ := state_zero (g := g)
  have hmem : Item.initial g.start [g.origin] ∈ st.items := hitems ▸ initialStart_mem_startItems
  exact Option.isSome_iff_exists.1 ((isSome_target?_iff hst).2 ⟨_, hmem, initialStart_next? hwf⟩)

theorem target?_ne_zero (hwf : g.WellFormed) (s : Nat) (x : Symbol) :
    g.automaton.target? s x ≠ some 0 := by
  intro h
  obtain ⟨st₀, st, next, -, hst, hgoto, hsame⟩ := goto_of_target? h
  apply initialStart_not_mem_goto? hwf hgoto
  rw [← hsame, items_state_zero hst]
  exact initialStart_mem_startItems

theorem eq_initialStart_of_advance {j : Item} (h : g.acceptItem = j.advance) :
    j = Item.initial g.start [g.origin] := by
  have hdot : g.acceptItem.dot = j.dot + 1 := congrArg Item.dot h
  exact Item.ext_fields (congrArg Item.lhs h).symm (congrArg Item.rhs h).symm
    (by simp [acceptItem, Item.initial] at hdot ⊢; omega)

theorem acceptItem_mem_iff (hwf : g.WellFormed) {t : Nat}
    (ht : g.automaton.target? 0 g.origin = some t) {s : Nat} {st : State}
    (hs : g.automaton.states[s]? = some st) : g.acceptItem ∈ st.items ↔ s = t := by
  constructor
  · intro hacc
    rcases state_discovered hs with rfl | ⟨i, -, st₀, x, hs₀, hx, hgoto⟩
    · rw [items_state_zero hs, startItems, mem_closure] at hacc
      rcases hacc with hseed | ⟨j, -, hpred⟩
      · simp [acceptItem, Item.initial] at hseed
      · exact absurd hpred.dot_eq_zero (by simp [acceptItem])
    · rcases (mem_goto? hgoto).1 hacc with ⟨j, hj, hjx, hadv⟩ | ⟨j, -, hpred⟩
      · obtain rfl := eq_initialStart_of_advance hadv
        obtain rfl := eq_zero_of_initialStart_mem hwf hs₀ hj
        rw [initialStart_next? hwf, Option.some.injEq] at hjx
        subst hjx
        exact Option.some.inj (hx.symm.trans ht)
      · exact absurd hpred.dot_eq_zero (by simp [acceptItem])
  · rintro rfl
    obtain ⟨st₀, hs₀, hitems⟩ := state_zero (g := g)
    obtain ⟨st', next, hst', hgoto, hsame⟩ := target?_goto? hs₀ ht
    rw [hs, Option.some.injEq] at hst'
    subst hst'
    rw [hsame, mem_goto? hgoto]
    exact .inl ⟨_, hitems ▸ initialStart_mem_startItems, initialStart_next? hwf, rfl⟩

theorem slrAction_eq_accept_iff (hwf : g.WellFormed) (follow : Symbol → List Symbol)
    {st : State} {a : Symbol} :
    g.slrAction g.vocabulary follow st a = some .accept ↔
      a = endMarker ∧ g.acceptItem ∈ st.items := by
  refine ⟨slrAction_eq_accept, ?_⟩
  rintro ⟨rfl, hmem⟩
  unfold slrAction
  rw [if_neg (by simp [hwf.not_isTerminal_endMarker]), if_pos ⟨rfl, hmem⟩]

theorem getElem?_actionColumns_eq_endMarker (hwf : g.WellFormed) {k : Nat} :
    g.vocabulary.actionColumns[k]? = some endMarker ↔ k = g.vocabulary.terminals.length := by
  constructor
  · intro hk
    rcases Nat.lt_or_ge k g.vocabulary.terminals.length with hlt | hge
    · rw [Vocabulary.actionColumns, List.getElem?_append_left hlt] at hk
      have hmem := List.mem_of_getElem? hk
      exact absurd (isTerminal_iff.2 hmem) (by rw [hwf.not_isTerminal_endMarker]; simp)
    · rw [Vocabulary.actionColumns, List.getElem?_append_right hge] at hk
      have hlt := (List.getElem?_eq_some_iff.1 hk).1
      simp only [List.length_singleton] at hlt
      omega
  · rintro rfl
    simp [Vocabulary.actionColumns]

theorem getElem?_row_eq_accept (hwf : g.WellFormed) {follow : Symbol → List Symbol} {s : Nat}
    {st : State} (hs : g.automaton.states[s]? = some st) {k : Nat} :
    (g.row g.vocabulary follow st)[k]? = some (.action .accept) ↔
      k = g.vocabulary.terminals.length ∧ g.acceptItem ∈ st.items := by
  rcases Nat.lt_or_ge k g.vocabulary.actionColumns.length with hlt | hge
  · rw [row, List.getElem?_append_left (by simpa using hlt), List.getElem?_map,
      List.getElem?_eq_getElem hlt, Option.map_some, Option.some.injEq,
      actionOf_eq_slrAction_of_state hwf hs,
      ← getElem?_actionColumns_eq_endMarker hwf, List.getElem?_eq_getElem hlt, Option.some.injEq]
    cases hx : g.slrAction g.vocabulary follow st g.vocabulary.actionColumns[k] with
    | none => simp [← slrAction_eq_accept_iff hwf follow, hx]
    | some x => simp [← slrAction_eq_accept_iff hwf follow, hx]
  · have hk : k ≠ g.vocabulary.terminals.length := by
      simp only [Vocabulary.actionColumns, List.length_append, List.length_singleton] at hge
      omega
    rw [row, List.getElem?_append_right (by simpa using hge)]
    simp only [List.getElem?_map, hk, false_and, iff_false]
    cases (g.vocabulary.nonterminals[k - (g.vocabulary.actionColumns.map _).length]?) with
    | none => simp
    | some n =>
      intro h
      cases hgoto : gotoOf st n <;> simp [hgoto] at h

/-- For every grammar read from text, state 0 goes on the start symbol to a state `t`, and of
all the cells of the table exactly one accepts: the one in row `t` and in the column of the end
marker. No transition leads to state 0, and the completed augmented item stands in state `t`
and in no other state. -/
theorem accept_cell_unique {text : String} {g : Grammar} (hg : Grammar.read text = .ok g) :
    ∃ t k : Nat, g.analyze.automaton.target? 0 g.origin = some t ∧
      g.analyze.table.columns[k]? = some endMarker ∧
      (∀ s j : Nat, (g.analyze.table.rows[s]?.bind (·[j]?)) = some (Cell.action .accept) ↔
        s = t ∧ j = k) ∧
      (∀ s x, g.analyze.automaton.target? s x ≠ some 0) ∧
      (∀ s st, g.analyze.automaton.states[s]? = some st → (g.acceptItem ∈ st.items ↔ s = t)) := by
  have hwf := read_wellFormed hg
  obtain ⟨t, ht⟩ := exists_target?_origin hwf
  refine ⟨t, g.vocabulary.terminals.length, ht, ?_, ?_, target?_ne_zero hwf,
    fun s st hs => acceptItem_mem_iff hwf ht hs⟩
  · simp [table_analyze, tableWith, Vocabulary.columns]
  · intro s j
    rw [table_analyze]
    simp only [tableWith, List.getElem?_map]
    cases hs : g.automaton.states[s]? with
    | none =>
      obtain ⟨st₀, st, next, -, hst, -⟩ := goto_of_target? ht
      simp only [Option.map_none, Option.bind_none, reduceCtorEq, false_iff, not_and]
      rintro rfl
      rw [hs] at hst
      cases hst
    | some st =>
      rw [Option.map_some, Option.bind_some, getElem?_row_eq_accept hwf hs,
        acceptItem_mem_iff hwf ht hs, and_comm]

/-- In the grammar of sums, accept stands in one cell. -/
theorem accept_cell_unique_sums :
    Grammar.read "E -> E + T | T\nT -> id" = .ok sums ∧
      ∃ t k : Nat, sums.analyze.automaton.target? 0 sums.origin = some t ∧
        sums.analyze.table.columns[k]? = some endMarker ∧
        (∀ s j : Nat, (sums.analyze.table.rows[s]?.bind (·[j]?)) = some (Cell.action .accept) ↔
          s = t ∧ j = k) ∧
        (∀ s x, sums.analyze.automaton.target? s x ≠ some 0) ∧
        (∀ s st, sums.analyze.automaton.states[s]? = some st →
          (sums.acceptItem ∈ st.items ↔ s = t)) := by
  have hread : Grammar.read "E -> E + T | T\nT -> id" = .ok sums := by rfl
  exact ⟨hread, accept_cell_unique hread⟩

end Grammar

end SimpleLR
