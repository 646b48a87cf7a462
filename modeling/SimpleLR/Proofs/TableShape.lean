import SimpleLR.Proofs.LookaheadSets
import SimpleLR.Proofs.StepSafety
/-!
# The shape of the parse table

The table is built from two maps, one from a state and a symbol to the state's action there and
one from a state and a non-terminal to its goto, and then laid out as rows of cells over the
terminals, the end marker and the non-terminals. Nothing is lost in the layout: an action is
keyed only by a terminal or the end marker, since FOLLOW holds nothing else, and a goto only by
a non-terminal of the columns, since the augmented start never stands after a dot. So the maps
have exactly as many keys as the table has filled action and goto cells, every action cell
shifts to a state or reduces by a rule other than the augmented one, every goto cell names a
state, and reading an action back from the table gives the map's action.

The main statement, `table_shape`.
-/

namespace SimpleLR

/-- A cell of an action column: empty, accept, a shift to one of `n` states, or a reduce by one
of the rules numbered `1` to `m - 1`. -/
def Cell.IsAction (n m : Nat) : Cell → Prop
  | .blank => True
  | .action (.shift j) => j < n
  | .action (.reduce k) => 1 ≤ k ∧ k < m
  | .action .accept => True
  | .goto _ => False

/-- A cell of a goto column: empty, or one of `n` states. -/
def Cell.IsGoto (n : Nat) : Cell → Prop
  | .blank => True
  | .goto j => j < n
  | .action _ => False

theorem foldl_add_eq {l : List Nat} (a : Nat) : l.foldl (· + ·) a = a + l.foldl (· + ·) 0 := by
  induction l generalizing a with
  | nil => rfl
  | cons x l ih =>
    simp only [List.foldl_cons]
    rw [ih (a + x), ih (0 + x)]
    omega

theorem ncard_filled {σ : Type} (C : List Symbol) (hC : C.Nodup) (f : σ → Symbol → Bool) :
    ∀ L : List σ, {p : Nat × Symbol | ∃ x, L[p.1]? = some x ∧ p.2 ∈ C ∧ f x p.2 = true}.ncard =
      (L.map fun x => (C.filter (f x)).length).foldl (· + ·) 0
  | [] => by simp
  | x :: L => by
    have hsplit : {p : Nat × Symbol | ∃ y, (x :: L)[p.1]? = some y ∧ p.2 ∈ C ∧ f y p.2 = true} =
        (Prod.mk 0 '' {a | a ∈ C.filter (f x)}) ∪
          (fun p => (p.1 + 1, p.2)) ''
            {p : Nat × Symbol | ∃ y, L[p.1]? = some y ∧ p.2 ∈ C ∧ f y p.2 = true} := by
      ext ⟨i, a⟩
      cases i with
      | zero => simp
      | succ i => simp
    have hfin : {p : Nat × Symbol | ∃ y, L[p.1]? = some y ∧ p.2 ∈ C ∧ f y p.2 = true}.Finite := by
      apply Set.Finite.subset ((Set.finite_lt_nat L.length).prod C.finite_toSet)
      rintro ⟨i, a⟩ ⟨y, hy, ha, -⟩
      exact ⟨(List.getElem?_eq_some_iff.1 hy).1, ha⟩
    have hdisj : Disjoint (Prod.mk 0 '' {a | a ∈ C.filter (f x)})
        ((fun p => (p.1 + 1, p.2)) ''
          {p : Nat × Symbol | ∃ y, L[p.1]? = some y ∧ p.2 ∈ C ∧ f y p.2 = true}) := by
      rw [Set.disjoint_left]
      rintro _ ⟨a, -, rfl⟩ ⟨⟨i, b⟩, -, heq⟩
      simp at heq
    have hhead : (Prod.mk 0 '' {a | a ∈ C.filter (f x)}).ncard = (C.filter (f x)).length := by
      rw [Set.ncard_image_of_injective _ (Prod.mk_right_injective 0)]
      rw [show {a | a ∈ C.filter (f x)} = ↑(C.filter (f x)).toFinset by ext; simp,
        Set.ncard_coe_finset, List.toFinset_card_of_nodup (hC.filter _)]
    have hinj : Function.Injective fun p : Nat × Symbol => (p.1 + 1, p.2) := by
      rintro ⟨i, a⟩ ⟨j, b⟩ h
      simp only [Prod.mk.injEq, Nat.add_right_cancel_iff] at h
      rw [h.1, h.2]
    rw [hsplit, Set.ncard_union_eq hdisj ((C.filter (f x)).finite_toSet.image _) (hfin.image _),
      hhead, Set.ncard_image_of_injective _ hinj, ncard_filled C hC f L, List.map_cons,
      List.foldl_cons, foldl_add_eq (0 + _), Nat.zero_add]

namespace Grammar

variable {g : Grammar}

/-- The keys of the action map: the states and the symbols where a state has an action. -/
def actionKeys (g : Grammar) : Set (Nat × Symbol) :=
  {p | ∃ st, g.automaton.states[p.1]? = some st ∧
    (g.actionOf g.vocabulary g.analyze.follow st p.2).isSome}

/-- The keys of the goto map: the states and the non-terminals, the augmented start among them,
where a state has a transition. -/
def gotoKeys (g : Grammar) : Set (Nat × Symbol) :=
  {p | ∃ st, g.automaton.states[p.1]? = some st ∧ g.vocabulary.isNonterminal p.2 = true ∧
    (gotoOf st p.2).isSome}

theorem nodup_terminals : g.vocabulary.terminals.Nodup :=
  (nodup_eraseDups _).filter _

theorem nodup_nonterminals : g.vocabulary.nonterminals.Nodup :=
  (nodup_eraseDups _).filter _

theorem nodup_actionColumns (hwf : g.WellFormed) : g.vocabulary.actionColumns.Nodup := by
  rw [Vocabulary.actionColumns, List.nodup_append]
  refine ⟨nodup_terminals, List.nodup_singleton _, ?_⟩
  rintro a ha b hb rfl
  rw [List.mem_singleton.1 hb] at ha
  exact absurd (isTerminal_iff.2 ha) (by rw [hwf.not_isTerminal_endMarker]; simp)

theorem mem_actionColumns_of_actionOf (hwf : g.WellFormed)
    (hε : ∀ r ∈ g.productions, epsilon ∈ r.rhs → r.rhs = [epsilon]) {s : Nat} {st : State}
    (hs : g.automaton.states[s]? = some st) {a : Symbol}
    (ha : (g.actionOf g.vocabulary g.analyze.follow st a).isSome) :
    a ∈ g.vocabulary.actionColumns := by
  obtain ⟨x, hx⟩ := Option.isSome_iff_exists.1 ha
  rw [actionOf_eq_slrAction_of_state hwf hs] at hx
  rw [Vocabulary.actionColumns, List.mem_append, List.mem_singleton]
  rcases slrAction_cases hx with ⟨n, -, hterm, -⟩ | ⟨-, rfl, -⟩ | ⟨k, -, i, hi, -⟩
  · exact .inl (isTerminal_iff.1 hterm)
  · exact .inr rfl
  · rcases (mem_reducers.1 hi).2.2.2 with hf | rfl
    · rw [analyze_follow] at hf
      exact mem_follow_terminal hwf hε hf
    · exact .inr rfl

theorem next?_ne_start (hwf : g.WellFormed) {i : Item} (hi : g.ItemOf i) :
    i.next? ≠ some g.start := by
  intro hnext
  obtain ⟨hlt, hget⟩ := Item.next?_eq_some.1 hnext
  have hbody : g.start ∈ i.body := hget ▸ List.getElem_mem hlt
  have hrhs : g.start ∈ i.rhs := by
    unfold Item.body bodyOf at hbody
    split at hbody
    · cases hbody
    · exact hbody
  obtain ⟨r, hr, -, hrr, -⟩ := hi
  rw [← hrr] at hrhs
  rcases List.mem_cons.1 hr with rfl | hr
  · exact hwf.start_ne_origin (List.mem_singleton.1 hrhs)
  · exact hwf.start_not_mem_rhs r hr hrhs

theorem mem_nonterminals_of_gotoOf (hwf : g.WellFormed) {s : Nat} {st : State}
    (hs : g.automaton.states[s]? = some st) {n : Symbol}
    (hn : g.vocabulary.isNonterminal n = true) (hgoto : (gotoOf st n).isSome) :
    n ∈ g.vocabulary.nonterminals := by
  simp only [Vocabulary.isNonterminal, Bool.or_eq_true, beq_iff_eq, List.contains_iff_mem] at hn
  rcases hn with rfl | hn
  · rw [gotoOf_eq_target? hs, isSome_target?_iff hs] at hgoto
    obtain ⟨i, hi, hnext⟩ := hgoto
    exact absurd hnext (next?_ne_start hwf (itemOf_of_mem_states (List.mem_of_getElem? hs) hi))
  · exact hn

theorem actionKeys_eq (hwf : g.WellFormed)
    (hε : ∀ r ∈ g.productions, epsilon ∈ r.rhs → r.rhs = [epsilon]) :
    g.actionKeys = {p | ∃ st, g.automaton.states[p.1]? = some st ∧
      p.2 ∈ g.vocabulary.actionColumns ∧
      (g.actionOf g.vocabulary g.analyze.follow st p.2).isSome = true} := by
  ext ⟨s, a⟩
  constructor
  · rintro ⟨st, hs, ha⟩
    exact ⟨st, hs, mem_actionColumns_of_actionOf hwf hε hs ha, ha⟩
  · rintro ⟨st, hs, -, ha⟩
    exact ⟨st, hs, ha⟩

theorem gotoKeys_eq (hwf : g.WellFormed) :
    g.gotoKeys = {p | ∃ st, g.automaton.states[p.1]? = some st ∧
      p.2 ∈ g.vocabulary.nonterminals ∧ (gotoOf st p.2).isSome = true} := by
  ext ⟨s, n⟩
  constructor
  · rintro ⟨st, hs, hn, hgoto⟩
    exact ⟨st, hs, mem_nonterminals_of_gotoOf hwf hs hn hgoto, hgoto⟩
  · rintro ⟨st, hs, hn, hgoto⟩
    refine ⟨st, hs, ?_, hgoto⟩
    simp [Vocabulary.isNonterminal, hn]

/-! ## The rows of the table -/

variable {follow : Symbol → List Symbol}

theorem length_row (st : State) :
    (g.row g.vocabulary follow st).length = g.vocabulary.columns.length := by
  simp [row, Vocabulary.columns, Vocabulary.actionColumns]

theorem take_row (st : State) :
    (g.row g.vocabulary follow st).take g.vocabulary.actionColumns.length =
      g.vocabulary.actionColumns.map fun a =>
        ((g.actionOf g.vocabulary follow st a).map Cell.action).getD .blank := by
  simp [row]

theorem drop_row (st : State) :
    (g.row g.vocabulary follow st).drop g.vocabulary.actionColumns.length =
      g.vocabulary.nonterminals.map fun n => ((gotoOf st n).map Cell.goto).getD .blank := by
  simp [row]

theorem length_filter_isFilled {C : List Symbol} {h : Symbol → Option Cell}
    (hfill : ∀ a c, h a = some c → c.isFilled = true) :
    ((C.map fun a => (h a).getD .blank).filter Cell.isFilled).length =
      (C.filter fun a => (h a).isSome).length := by
  induction C with
  | nil => rfl
  | cons a C ih =>
    cases ha : h a with
    | none => simp [ha, Cell.isFilled, ih]
    | some c => simp [ha, hfill a c ha, ih]

theorem length_filter_take_row (st : State) :
    (((g.row g.vocabulary follow st).take g.vocabulary.actionColumns.length).filter
      Cell.isFilled).length =
      (g.vocabulary.actionColumns.filter fun a =>
        (g.actionOf g.vocabulary follow st a).isSome).length := by
  rw [take_row, length_filter_isFilled]
  · simp [Option.isSome_map]
  · intro a c hc
    obtain ⟨x, -, rfl⟩ := Option.map_eq_some_iff.1 hc
    rfl

theorem length_filter_drop_row (st : State) :
    ((((g.row g.vocabulary follow st).drop g.vocabulary.actionColumns.length).take
      g.vocabulary.columns.length).filter Cell.isFilled).length =
      (g.vocabulary.nonterminals.filter fun n => (gotoOf st n).isSome).length := by
  have hlen : g.vocabulary.nonterminals.length ≤ g.vocabulary.columns.length := by
    simp only [Vocabulary.columns, List.length_append, List.length_cons]
    omega
  rw [drop_row, List.take_of_length_le (by simpa using hlen), length_filter_isFilled]
  · simp [Option.isSome_map]
  · intro n c hc
    obtain ⟨x, -, rfl⟩ := Option.map_eq_some_iff.1 hc
    rfl

variable {a : Automaton}

theorem actionCount_tableWith (hwf : g.WellFormed) :
    (g.tableWith g.vocabulary a follow).actionCount =
      (a.states.map fun st => (g.vocabulary.actionColumns.filter fun c =>
        (g.actionOf g.vocabulary follow st c).isSome).length).foldl (· + ·) 0 := by
  rw [Table.actionCount, actionColumns_tableWith hwf]
  simp only [Table.countFilled, tableWith, List.map_map]
  congr 1
  exact List.map_congr_left fun st _ => length_filter_take_row st

theorem gotoCount_tableWith (hwf : g.WellFormed) :
    (g.tableWith g.vocabulary a follow).gotoCount =
      (a.states.map fun st => (g.vocabulary.nonterminals.filter fun n =>
        (gotoOf st n).isSome).length).foldl (· + ·) 0 := by
  rw [Table.gotoCount, actionColumns_tableWith hwf]
  simp only [Table.countFilled, tableWith, List.map_map]
  congr 1
  exact List.map_congr_left fun st _ => length_filter_drop_row st

/-! ## The cells of the table -/

section Cells

variable (hwf : g.WellFormed)

include hwf in
theorem isAction_cell {s : Nat} {st : State} (hs : g.automaton.states[s]? = some st)
    (a : Symbol) :
    (((g.actionOf g.vocabulary follow st a).map Cell.action).getD .blank).IsAction
      g.automaton.states.length g.rules.length := by
  rw [actionOf_eq_slrAction_of_state hwf hs]
  cases hx : g.slrAction g.vocabulary follow st a with
  | none => trivial
  | some x =>
    rcases slrAction_cases hx with ⟨n, rfl, -, hlookup⟩ | ⟨rfl, -⟩ | ⟨k, rfl, i, hi, hk⟩
    · have hn : g.automaton.target? s a = some n := by
        rw [← gotoOf_eq_target? hs]
        exact hlookup
      obtain ⟨st', -, hst', -⟩ := target?_goto? hs hn
      exact (List.getElem?_eq_some_iff.1 hst').1
    · trivial
    · obtain ⟨hmem, hend, hne, -⟩ := mem_reducers.1 hi
      obtain ⟨r, hr, hl, hrhs⟩ := ruleIndex?_eq_some hk
      obtain ⟨hk0, -⟩ := reduced_rule_mem_productions hwf hs hmem hend hne hr hl hrhs
      exact ⟨Nat.one_le_iff_ne_zero.2 hk0, (List.getElem?_eq_some_iff.1 hr).1⟩

theorem isGoto_cell {s : Nat} {st : State} (hs : g.automaton.states[s]? = some st) (n : Symbol) :
    (((gotoOf st n).map Cell.goto).getD .blank).IsGoto g.automaton.states.length := by
  cases hgoto : gotoOf st n with
  | none => trivial
  | some j =>
    rw [gotoOf_eq_target? hs] at hgoto
    obtain ⟨st', -, hst', -⟩ := target?_goto? hs hgoto
    exact (List.getElem?_eq_some_iff.1 hst').1

include hwf in
theorem isAction_or_isGoto {s : Nat} {st : State} (hs : g.automaton.states[s]? = some st)
    {k : Nat} {c : Cell} (hc : (g.row g.vocabulary follow st)[k]? = some c) :
    if k < g.vocabulary.actionColumns.length then c.IsAction g.automaton.states.length g.rules.length
    else c.IsGoto g.automaton.states.length := by
  split
  · rename_i hk
    rw [row, List.getElem?_append_left (by simpa using hk), List.getElem?_map,
      List.getElem?_eq_getElem hk, Option.map_some, Option.some.injEq] at hc
    rw [← hc]
    exact isAction_cell hwf hs _
  · rename_i hk
    rw [row, List.getElem?_append_right (by simpa using hk), List.getElem?_map] at hc
    obtain ⟨n, -, rfl⟩ := Option.map_eq_some_iff.1 hc
    exact isGoto_cell hs n

end Cells

/-- For every grammar read from text, the table's columns are the terminals, the end marker
and the non-terminals; it has a row per state, each with a cell per column. The action map is
keyed by states and terminals or the end marker, the goto map by states and non-terminals of
the columns, so each has as many keys as the table has filled cells of its kind. An action
cell is empty, accepts, shifts to a state or reduces by a rule other than the augmented one; a
goto cell is empty or names a state. When the states and rules can be counted in a word, the
action read from the table at a state and an action column is the map's. -/
theorem table_shape {text : String} {g : Grammar} (hg : Grammar.read text = .ok g) :
    g.analyze.table.columns =
        g.analyze.vocabulary.terminals ++ endMarker :: g.analyze.vocabulary.nonterminals ∧
      g.analyze.table.rows.length = g.analyze.automaton.states.length ∧
      (∀ r ∈ g.analyze.table.rows, r.length = g.analyze.table.columns.length) ∧
      (∀ p ∈ g.actionKeys, p.1 < g.analyze.automaton.states.length ∧
        (p.2 ∈ g.analyze.vocabulary.terminals ∨ p.2 = endMarker)) ∧
      (∀ p ∈ g.gotoKeys, p.1 < g.analyze.automaton.states.length ∧
        p.2 ∈ g.analyze.vocabulary.nonterminals) ∧
      g.actionKeys.ncard = g.analyze.table.actionCount ∧
      g.gotoKeys.ncard = g.analyze.table.gotoCount ∧
      (∀ (s : Nat) (r : List Cell), g.analyze.table.rows[s]? = some r →
        ∀ (k : Nat) (c : Cell), r[k]? = some c →
        if k < g.analyze.vocabulary.actionColumns.length then
          c.IsAction g.analyze.automaton.states.length g.rules.length
        else c.IsGoto g.analyze.automaton.states.length) ∧
      (fitsWord g.analyze.automaton.states.length = true ∧ fitsWord g.rules.length = true →
        ∀ (s : Nat) (st : State) (a : Symbol), g.analyze.automaton.states[s]? = some st →
          a ∈ g.analyze.vocabulary.actionColumns →
          g.analyze.table.action s a =
            .ok (g.actionOf g.analyze.vocabulary g.analyze.follow st a)) := by
  have hwf := read_wellFormed hg
  have hε := read_epsilon hg
  have hrows : g.analyze.table.rows = g.automaton.states.map (g.row g.vocabulary g.analyze.follow) :=
    rfl
  have hvocabulary : g.analyze.vocabulary = g.vocabulary := rfl
  have hautomaton : g.analyze.automaton = g.automaton := rfl
  rw [hvocabulary, hautomaton]
  refine ⟨?_, ?_, ?_, ?_, ?_, ?_, ?_, ?_, ?_⟩
  · exact columns_tableWith.trans (by simp [Vocabulary.actionColumns])
  · simp [hrows]
  · intro r hr
    rw [hrows] at hr
    obtain ⟨st, -, rfl⟩ := List.mem_map.1 hr
    exact length_row st
  · rintro ⟨s, a⟩ ⟨st, hs, ha⟩
    refine ⟨(List.getElem?_eq_some_iff.1 hs).1, ?_⟩
    have hmem := mem_actionColumns_of_actionOf hwf hε hs ha
    simpa [Vocabulary.actionColumns] using hmem
  · rintro ⟨s, n⟩ ⟨st, hs, hn, hgoto⟩
    exact ⟨(List.getElem?_eq_some_iff.1 hs).1, mem_nonterminals_of_gotoOf hwf hs hn hgoto⟩
  · rw [actionKeys_eq hwf hε, ncard_filled _ (nodup_actionColumns hwf)
      (fun st a => (g.actionOf g.vocabulary g.analyze.follow st a).isSome), table_analyze,
      actionCount_tableWith hwf]
  · rw [gotoKeys_eq hwf, ncard_filled _ nodup_nonterminals (fun st n => (gotoOf st n).isSome),
      table_analyze, gotoCount_tableWith hwf]
  · intro s r hr k c hc
    rw [hrows, List.getElem?_map] at hr
    obtain ⟨st, hs, rfl⟩ := Option.map_eq_some_iff.1 hr
    exact isAction_or_isGoto hwf hs hc
  · intro hsize s st a hs ha
    apply action_tableWith_of_mem hwf hs (fitsWord_of_state hsize hs) ha
    intro x hx
    rw [actionOf_eq_slrAction_of_state hwf hs] at hx
    exact arg_lt_of_slrAction hsize hs hx

set_option maxRecDepth 1500 in
/-- In the grammar of sums, the action and goto maps have as many keys as the table has filled
cells of their kind, and every action read from the table is the map's. -/
theorem table_shape_sums :
    Grammar.read "E -> E + T | T\nT -> id" = .ok sums ∧
      sums.actionKeys.ncard = sums.analyze.table.actionCount ∧
      sums.gotoKeys.ncard = sums.analyze.table.gotoCount ∧
      ∀ (s : Nat) (st : State) (a : Symbol), sums.analyze.automaton.states[s]? = some st →
        a ∈ sums.analyze.vocabulary.actionColumns →
        sums.analyze.table.action s a =
          .ok (sums.actionOf sums.analyze.vocabulary sums.analyze.follow st a) := by
  have hread : Grammar.read "E -> E + T | T\nT -> id" = .ok sums := by rfl
  have hstates : sums.analyze.automaton.states.length = 6 := by cbv
  have hsize : fitsWord sums.analyze.automaton.states.length = true ∧
      fitsWord sums.rules.length = true := by
    rw [hstates]
    exact ⟨by decide, by decide⟩
  obtain ⟨-, -, -, -, -, hactions, hgotos, -, hread_back⟩ := table_shape hread
  exact ⟨hread, hactions, hgotos, hread_back hsize⟩

end Grammar

end SimpleLR
