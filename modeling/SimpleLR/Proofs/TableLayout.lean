import SimpleLR.Analysis
import SimpleLR.Proofs.ReadGrammar
import SimpleLR.Proofs.CellCodec
/-!
# The layout of a parse table

The terminals of a grammar are the symbols of its alternatives that no rule defines, and its
non-terminals the left-hand sides other than the augmented start; in a well-formed grammar the
end marker is neither. A table built from a vocabulary has the terminals, the end marker and
the non-terminals as its columns, and the row of a state holds the state's actions in the first
two groups and its gotos in the last, so looking a column up finds the action or the goto that
the state has there. The main statements are `Table.action` and `Table.cell` read back on a
built table: `action_tableWith_of_mem`, `action_tableWith_of_not_mem`, `cell_tableWith_goto`.
-/

namespace SimpleLR

namespace Grammar

variable {g : Grammar}

theorem mem_terminals {x : Symbol} : x ∈ g.vocabulary.terminals ↔
    (∃ r ∈ g.rules, x ∈ r.rhs) ∧ (∀ r ∈ g.rules, r.lhs ≠ x) ∧ x ≠ epsilon ∧ x ≠ g.start := by
  simp [vocabulary, List.mem_filter, List.mem_eraseDups, and_assoc]

theorem mem_nonterminals {x : Symbol} :
    x ∈ g.vocabulary.nonterminals ↔ (∃ r ∈ g.rules, r.lhs = x) ∧ x ≠ g.start := by
  simp [vocabulary, List.mem_filter, List.mem_eraseDups]

theorem isTerminal_iff {x : Symbol} : g.vocabulary.isTerminal x = true ↔ x ∈ g.vocabulary.terminals := by
  simp [Vocabulary.isTerminal]

theorem lhs_ne_of_isTerminal {x : Symbol} (hx : g.vocabulary.isTerminal x = true) {r : Rule}
    (hr : r ∈ g.rules) : r.lhs ≠ x :=
  (mem_terminals.1 (isTerminal_iff.1 hx)).2.1 r hr

theorem WellFormed.origin_ne_endMarker (hwf : g.WellFormed) : g.origin ≠ endMarker := by
  obtain ⟨r, hr, hlhs⟩ := hwf.origin_defined
  exact hlhs ▸ hwf.lhs_ne_endMarker r hr

theorem WellFormed.not_isTerminal_endMarker (hwf : g.WellFormed) :
    g.vocabulary.isTerminal endMarker = false := by
  rw [Bool.eq_false_iff]
  intro h
  obtain ⟨⟨r, hr, hmem⟩, -⟩ := mem_terminals.1 (isTerminal_iff.1 h)
  rcases List.mem_cons.1 hr with rfl | hr
  · exact hwf.origin_ne_endMarker (List.mem_singleton.1 hmem).symm
  · exact hwf.endMarker_not_mem_rhs r hr hmem

theorem WellFormed.ne_endMarker_of_isTerminal (hwf : g.WellFormed) {x : Symbol}
    (hx : g.vocabulary.isTerminal x = true) : x ≠ endMarker := by
  rintro rfl
  rw [hwf.not_isTerminal_endMarker] at hx
  cases hx

theorem WellFormed.endMarker_not_mem_nonterminals (hwf : g.WellFormed) :
    endMarker ∉ g.vocabulary.nonterminals := by
  intro h
  obtain ⟨⟨r, hr, hlhs⟩, hstart⟩ := mem_nonterminals.1 h
  rcases List.mem_cons.1 hr with rfl | hr
  · exact hstart hlhs.symm
  · exact hwf.lhs_ne_endMarker r hr hlhs

theorem WellFormed.lhs_mem_nonterminals (hwf : g.WellFormed) {r : Rule} (hr : r ∈ g.productions) :
    r.lhs ∈ g.vocabulary.nonterminals ∧ r.lhs ∉ g.vocabulary.actionColumns := by
  refine ⟨mem_nonterminals.2 ⟨⟨r, List.mem_cons_of_mem _ hr, rfl⟩, hwf.start_ne_lhs r hr⟩, ?_⟩
  intro hmem
  rcases List.mem_append.1 hmem with h | h
  · exact lhs_ne_of_isTerminal (isTerminal_iff.2 h) (List.mem_cons_of_mem _ hr) rfl
  · exact hwf.lhs_ne_endMarker r hr (List.mem_singleton.1 h)

end Grammar

/-! ## Looking a column up in a row -/

theorem getD_idxOf? {A N : List Symbol} {f h : Symbol → Cell} {col : Symbol} {k : Nat}
    (hk : (A ++ N).idxOf? col = some k) :
    (A.map f ++ N.map h).getD k .blank = if col ∈ A then f col else h col := by
  obtain ⟨hlt, hget, hfirst⟩ := List.idxOf?_eq_some_iff.1 hk
  rw [List.getD_eq_getElem?_getD]
  split
  · rename_i hA
    obtain ⟨i, hi, hAi⟩ := List.getElem_of_mem hA
    have hki : k < A.length := by
      by_contra hge
      have := hfirst i (by omega)
      rw [List.getElem_append_left hi] at this
      exact this hAi
    rw [List.getElem_append_left hki] at hget
    rw [List.getElem?_append_left (by simpa using hki), List.getElem?_map,
      List.getElem?_eq_getElem hki, hget]
    rfl
  · rename_i hA
    have hki : A.length ≤ k := by
      by_contra hlt'
      rw [List.getElem_append_left (by omega)] at hget
      exact hA (hget ▸ List.getElem_mem _)
    rw [List.getElem_append_right hki] at hget
    have hkN : k - A.length < N.length := by
      simp only [List.length_append] at hlt
      omega
    rw [List.getElem?_append_right (by simpa using hki), List.length_map, List.getElem?_map,
      List.getElem?_eq_getElem hkN, hget]
    rfl

namespace Grammar

variable {g : Grammar} {a : Automaton} {follow : Symbol → List Symbol}

theorem columns_tableWith :
    (g.tableWith g.vocabulary a follow).columns =
      g.vocabulary.actionColumns ++ g.vocabulary.nonterminals := by
  simp [tableWith, Vocabulary.columns, Vocabulary.actionColumns]

theorem actionColumns_tableWith (hwf : g.WellFormed) :
    (g.tableWith g.vocabulary a follow).actionColumns = g.vocabulary.actionColumns := by
  have hne : ∀ x ∈ g.vocabulary.terminals, (x != endMarker) = true := by
    intro x hx
    have : x ≠ endMarker := fun h => by
      rw [h, ← isTerminal_iff, hwf.not_isTerminal_endMarker] at hx
      cases hx
    simpa using this
  simp only [Table.actionColumns, tableWith, Vocabulary.columns, Vocabulary.actionColumns]
  rw [List.takeWhile_append_of_pos hne]
  simp

theorem row_tableWith {s : Nat} {st : State} (hs : a.states[s]? = some st) (hfit : fitsWord s) :
    (g.tableWith g.vocabulary a follow).row s = .ok (g.row g.vocabulary follow st) := by
  simp [Table.row, stateAt, hfit, getSigned?, tableWith, hs]

theorem cell_tableWith {s : Nat} {st : State} (hs : a.states[s]? = some st) (hfit : fitsWord s)
    {col : Symbol} (hcol : col ∈ g.vocabulary.actionColumns ++ g.vocabulary.nonterminals) :
    (g.tableWith g.vocabulary a follow).cell s col = .ok
      (if col ∈ g.vocabulary.actionColumns then
        ((g.actionOf g.vocabulary follow st col).map Cell.action).getD .blank
      else ((gotoOf st col).map Cell.goto).getD .blank) := by
  obtain ⟨k, hk⟩ := Option.isSome_iff_exists.1 (List.isSome_idxOf?.2 hcol)
  simp only [Table.cell, row_tableWith hs hfit, bind, Except.bind, columns_tableWith, hk, pure,
    Except.pure, Except.ok.injEq]
  exact getD_idxOf? hk

theorem cell_tableWith_action {s : Nat} {st : State} (hs : a.states[s]? = some st)
    (hfit : fitsWord s) {col : Symbol} (hcol : col ∈ g.vocabulary.actionColumns) :
    (g.tableWith g.vocabulary a follow).cell s col =
      .ok (((g.actionOf g.vocabulary follow st col).map Cell.action).getD .blank) := by
  rw [cell_tableWith hs hfit (List.mem_append_left _ hcol), if_pos hcol]

theorem cell_tableWith_goto (hwf : g.WellFormed) {s : Nat} {st : State}
    (hs : a.states[s]? = some st) (hfit : fitsWord s) {r : Rule} (hr : r ∈ g.productions) :
    (g.tableWith g.vocabulary a follow).cell s r.lhs =
      .ok (((gotoOf st r.lhs).map Cell.goto).getD .blank) := by
  obtain ⟨hnt, hnac⟩ := hwf.lhs_mem_nonterminals hr
  rw [cell_tableWith hs hfit (List.mem_append_right _ hnt), if_neg hnac]

/-- The action of a state in an action column is the state's action, when its number can be
read back. -/
theorem action_tableWith_of_mem (hwf : g.WellFormed) {s : Nat} {st : State}
    (hs : a.states[s]? = some st) (hfit : fitsWord s) {col : Symbol}
    (hcol : col ∈ g.vocabulary.actionColumns)
    (hsmall : ∀ x ∈ g.actionOf g.vocabulary follow st col, x.arg < Nat.pow 10 digitLimit) :
    (g.tableWith g.vocabulary a follow).action s col = .ok (g.actionOf g.vocabulary follow st col) := by
  simp only [Table.action, actionColumns_tableWith hwf, if_pos hcol,
    cell_tableWith_action hs hfit hcol, bind, Except.bind]
  cases hact : g.actionOf g.vocabulary follow st col with
  | none => rfl
  | some x =>
    simp only [Option.map_some, Option.getD_some, Cell.value]
    rw [decodeCell_text (hsmall x (by simp [hact]))]
    rfl

theorem action_tableWith_of_not_mem (hwf : g.WellFormed) {s : Int} {col : Symbol}
    (hcol : col ∉ g.vocabulary.actionColumns) :
    (g.tableWith g.vocabulary a follow).action s col = .ok none := by
  simp [Table.action, actionColumns_tableWith hwf, hcol]
  rfl

theorem exists_state_of_row {s : Nat} {r : List Cell}
    (h : (g.tableWith g.vocabulary a follow).row s = .ok r) :
    ∃ st, a.states[s]? = some st ∧ fitsWord s := by
  by_cases hfit : fitsWord s
  · cases hs : a.states[s]? with
    | none => simp [Table.row, stateAt, hfit, getSigned?, tableWith, hs] at h
    | some st => exact ⟨st, rfl, hfit⟩
  · simp [Table.row, stateAt, hfit] at h

theorem exists_state_of_cell {s : Nat} {col : Symbol} {c : Cell}
    (h : (g.tableWith g.vocabulary a follow).cell s col = .ok c) :
    ∃ st, a.states[s]? = some st ∧ fitsWord s ∧
      col ∈ g.vocabulary.actionColumns ++ g.vocabulary.nonterminals := by
  cases hr : (g.tableWith g.vocabulary a follow).row s with
  | error e => simp [Table.cell, hr, bind, Except.bind] at h
  | ok r =>
    obtain ⟨st, hs, hfit⟩ := exists_state_of_row hr
    refine ⟨st, hs, hfit, ?_⟩
    cases hk : (g.vocabulary.actionColumns ++ g.vocabulary.nonterminals).idxOf? col with
    | none =>
      simp [Table.cell, hr, columns_tableWith, hk, bind, Except.bind] at h
    | some k => exact List.isSome_idxOf?.1 (by rw [hk]; rfl)

theorem action_tableWith_eq_some (hwf : g.WellFormed) {s : Nat} {col : Symbol} {x : Action}
    (h : (g.tableWith g.vocabulary a follow).action s col = .ok (some x)) :
    ∃ st, a.states[s]? = some st ∧ col ∈ g.vocabulary.actionColumns ∧
      g.actionOf g.vocabulary follow st col = some x := by
  by_cases hcol : col ∈ g.vocabulary.actionColumns
  · have hcell : ∃ c, (g.tableWith g.vocabulary a follow).cell s col = .ok c := by
      simp only [Table.action, actionColumns_tableWith hwf, if_pos hcol, bind, Except.bind] at h
      cases hc : (g.tableWith g.vocabulary a follow).cell s col with
      | error e =>
        rw [hc] at h
        cases h
      | ok c => exact ⟨c, rfl⟩
    obtain ⟨c, hc⟩ := hcell
    obtain ⟨st, hs, hfit, -⟩ := exists_state_of_cell hc
    refine ⟨st, hs, hcol, ?_⟩
    simp only [Table.action, actionColumns_tableWith hwf, if_pos hcol,
      cell_tableWith_action hs hfit hcol, bind, Except.bind] at h
    cases hact : g.actionOf g.vocabulary follow st col with
    | none =>
      simp only [hact, Option.map_none, Option.getD_none, Cell.value] at h
      cases h
    | some y =>
      simp only [hact, Option.map_some, Option.getD_some, Cell.value] at h
      cases hdec : decodeCell (.text y.text) with
      | error e =>
        rw [hdec] at h
        cases h
      | ok v =>
        rw [hdec] at h
        cases h
        exact congrArg some (decodeCell_text_eq_some hdec).symm
  · rw [action_tableWith_of_not_mem hwf hcol] at h
    cases h

theorem cell_tableWith_eq_goto {s : Nat} {col : Symbol} {n : Nat}
    (h : (g.tableWith g.vocabulary a follow).cell s col = .ok (.goto n)) :
    ∃ st, a.states[s]? = some st ∧ gotoOf st col = some n := by
  obtain ⟨st, hs, hfit, hcol⟩ := exists_state_of_cell h
  refine ⟨st, hs, ?_⟩
  rw [cell_tableWith hs hfit hcol] at h
  split at h
  · cases hact : g.actionOf g.vocabulary follow st col <;> simp [hact] at h
  · cases hgoto : gotoOf st col with
    | none => simp [hgoto] at h
    | some m =>
      simp only [hgoto, Option.map_some, Option.getD_some, Except.ok.injEq, Cell.goto.injEq] at h
      rw [h]

end Grammar

end SimpleLR
