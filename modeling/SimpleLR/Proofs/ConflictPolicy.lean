import SimpleLR.Analysis
import SimpleLR.Proofs.Automaton
import SimpleLR.Proofs.TableLayout
/-!
# The conflict policy of the action table

The items of a state write the state's action cells one after another: a shift or an accept
overwrites whatever the cell held, a reduce writes only over an empty cell or another reduce.
`slrAction` says what that sweep leaves, as a priority: a shift on a terminal that stands after
some dot; otherwise accept in the end-marker column when the state holds the completed augmented
item; otherwise a reduce by the last finished item, in item order, whose FOLLOW holds the column
(or the column is the end marker); otherwise nothing. So the order of the items matters only
between two reduces, and FOLLOW is read only through membership.

The main statement, `table_conflict_policy`: for every grammar read from text and every state of
its automaton, each action cell is `slrAction`, each goto cell is the state's transition on the
non-terminal and is filled exactly for the non-terminals after a dot, and the analysis table has
these cells as the state's row.
-/

namespace SimpleLR

namespace Grammar

/-- The completed augmented start item `S' -> S ·`. -/
def acceptItem (g : Grammar) : Item := ⟨g.start, [g.origin], 1⟩

/-- The finished items other than the completed augmented item that reduce in column `a`: those
whose FOLLOW holds `a`, and all of them in the end-marker column. -/
def reducers (g : Grammar) (follow : Symbol → List Symbol) (items : List Item) (a : Symbol) :
    List Item :=
  items.filter fun i => i.atEnd && i != g.acceptItem && (decide (a ∈ follow i.lhs) || a == endMarker)

/-- The action of a state in column `a` under the table's conflict policy: a shift beats accept,
accept beats a reduce, and of two reduces the later item's wins. -/
def slrAction (g : Grammar) (v : Vocabulary) (follow : Symbol → List Symbol) (st : State)
    (a : Symbol) : Option Action :=
  if v.isTerminal a = true ∧ ∃ i ∈ st.items, i.next? = some a then
    (st.transitions.lookup a).map .shift
  else if a = endMarker ∧ g.acceptItem ∈ st.items then some .accept
  else (g.reducers follow st.items a).getLast?.bind fun i => (g.ruleIndex? i.lhs i.rhs).map .reduce

variable {g : Grammar}

theorem mem_reducers {follow : Symbol → List Symbol} {items : List Item} {a : Symbol} {i : Item} :
    i ∈ g.reducers follow items a ↔
      i ∈ items ∧ i.atEnd = true ∧ i ≠ g.acceptItem ∧ (a ∈ follow i.lhs ∨ a = endMarker) := by
  simp [reducers, and_assoc]

theorem reducers_append_singleton {follow : Symbol → List Symbol} {items : List Item} {a : Symbol}
    {i : Item} : g.reducers follow (items ++ [i]) a =
      g.reducers follow items a ++ if i.atEnd = true ∧ i ≠ g.acceptItem ∧
        (a ∈ follow i.lhs ∨ a = endMarker) then [i] else [] := by
  have hb : (i.atEnd && i != g.acceptItem && (decide (a ∈ follow i.lhs) || a == endMarker)) =
      decide (i.atEnd = true ∧ i ≠ g.acceptItem ∧ (a ∈ follow i.lhs ∨ a = endMarker)) := by
    rw [Bool.eq_iff_iff]
    simp [and_assoc]
  simp only [reducers, List.filter_append, List.filter_singleton, hb, Bool.cond_decide]

theorem WellFormed.origin_ne_epsilon (hwf : g.WellFormed) : g.origin ≠ epsilon := by
  obtain ⟨r, hr, hlhs⟩ := hwf.origin_defined
  exact hlhs ▸ hwf.lhs_ne_epsilon r hr

theorem acceptItem_next? (horigin : g.origin ≠ epsilon) : g.acceptItem.next? = none := by
  have hbody : g.acceptItem.body = [g.origin] := by
    simp [Item.body, bodyOf, acceptItem, horigin]
  rw [Item.next?, hbody]
  rfl

theorem eq_acceptItem_of_itemOf (horigin : g.origin ≠ epsilon) {i : Item} (hi : g.ItemOf i)
    (hend : i.atEnd = true) : i.lhs = g.start ∧ i.rhs = [g.origin] ↔ i = g.acceptItem := by
  constructor
  · rintro ⟨hl, hr⟩
    obtain ⟨-, -, -, -, hdot⟩ := hi
    have hbody : i.body = [g.origin] := by
      simp [Item.body, bodyOf, hr, horigin]
    simp only [Item.atEnd, hbody, List.length_singleton, decide_eq_true_eq] at hend
    rw [hbody, List.length_singleton] at hdot
    exact Item.ext_fields hl hr (by simp [acceptItem]; omega)
  · rintro rfl
    exact ⟨rfl, rfl⟩

theorem isSome_ruleIndex? {i : Item} (hi : g.ItemOf i) : (g.ruleIndex? i.lhs i.rhs).isSome := by
  obtain ⟨r, hr, hl, hrhs, -⟩ := hi
  rw [ruleIndex?, List.findIdx?_isSome, List.any_eq_true]
  exact ⟨r, hr, by simp [hl, hrhs]⟩

/-! ## One item's write -/

section Sweep

variable {v : Vocabulary} {follow : Symbol → List Symbol} {ts : List (Symbol × Nat)} {a : Symbol}

theorem actionStep_shift {i : Item} {j : Nat} (hi : i.next? = some a)
    (ha : v.isTerminal a = true) (hj : ts.lookup a = some j) (cur : Option Action) :
    g.actionStep v follow ts a cur i = some (.shift j) := by
  simp [actionStep, hi, ha, hj]

theorem actionStep_shift_stays {j : Nat} (hj : ts.lookup a = some j) (ha : a ≠ endMarker)
    (i : Item) : g.actionStep v follow ts a (some (.shift j)) i = some (.shift j) := by
  cases hn : i.next? with
  | some x =>
    by_cases hx : x = a
    · subst hx
      simp [actionStep, hn, hj]
    · simp [actionStep, hn, hx]
  | none => simp [actionStep, hn, ha]

theorem actionStep_accept {i : Item} (hi : i.next? = none)
    (hs : i.lhs = g.start ∧ i.rhs = [g.origin]) (cur : Option Action) :
    g.actionStep v follow ts endMarker cur i = some .accept := by
  simp [actionStep, hi, hs]

theorem actionStep_accept_stays (ha : v.isTerminal a = false) (i : Item) :
    g.actionStep v follow ts a (some .accept) i = some .accept := by
  cases hn : i.next? with
  | some x =>
    by_cases hx : x = a
    · subst hx
      simp [actionStep, hn, ha]
    · simp [actionStep, hn, hx]
  | none => simp [actionStep, hn]

theorem actionStep_reduce {i : Item} (hshift : i.next? = some a → v.isTerminal a = false)
    (hstart : i.atEnd = true → (i.lhs = g.start ∧ i.rhs = [g.origin] ↔ i = g.acceptItem))
    (hacc : a = endMarker → i ≠ g.acceptItem) {cur : Option Action}
    (hcur : cur = none ∨ ∃ k, cur = some (.reduce k)) :
    g.actionStep v follow ts a cur i =
      if i.atEnd = true ∧ i ≠ g.acceptItem ∧ (a ∈ follow i.lhs ∨ a = endMarker) then
        some (.reduce ((g.ruleIndex? i.lhs i.rhs).getD 0))
      else cur := by
  cases hn : i.next? with
  | some x =>
    have hend : i.atEnd = false := (Item.next?_isSome_iff i).1 (by rw [hn]; rfl)
    have hx : ¬(x = a ∧ v.isTerminal x = true) := by
      rintro ⟨rfl, hx⟩
      rw [hshift hn] at hx
      cases hx
    simp only [actionStep, hn]
    rw [if_neg hx, if_neg (by simp [hend])]
  | none =>
    have hend : i.atEnd = true := by
      cases h : i.atEnd
      · have := (Item.next?_isSome_iff i).2 h
        rw [hn] at this
        cases this
      · rfl
    simp only [actionStep, hn]
    by_cases hs : i.lhs = g.start ∧ i.rhs = [g.origin]
    · have hi : i = g.acceptItem := (hstart hend).1 hs
      have ha : a ≠ endMarker := fun ha => hacc ha hi
      rw [if_pos hs, if_neg ha, if_neg (by simp [hi])]
    · have hi : i ≠ g.acceptItem := fun hi => hs ((hstart hend).2 hi)
      rw [if_neg hs]
      by_cases hf : a ∈ follow i.lhs ∨ a = endMarker
      · rw [if_pos hf, if_pos ⟨hend, hi, hf⟩]
        rcases hcur with rfl | ⟨k, rfl⟩ <;> rfl
      · rw [if_neg hf, if_neg (by simp [hf])]

/-! ## The sweep over a state's items -/

theorem foldl_actionStep_shift {items : List Item} {i : Item} (hi : i ∈ items)
    (hnext : i.next? = some a) (ha : v.isTerminal a = true)
    (hterm : v.isTerminal endMarker = false) {j : Nat} (hj : ts.lookup a = some j)
    (cur : Option Action) : items.foldl (g.actionStep v follow ts a) cur = some (.shift j) := by
  obtain ⟨l₁, l₂, rfl⟩ := List.append_of_mem hi
  have hne : a ≠ endMarker := by
    rintro rfl
    rw [hterm] at ha
    cases ha
  rw [List.foldl_append, List.foldl_cons, actionStep_shift hnext ha hj]
  exact List.foldl_fixed' (actionStep_shift_stays hj hne) l₂

theorem foldl_actionStep_accept {items : List Item} {i : Item} (hi : i ∈ items)
    (hnext : i.next? = none) (hs : i.lhs = g.start ∧ i.rhs = [g.origin])
    (hterm : v.isTerminal endMarker = false) (cur : Option Action) :
    items.foldl (g.actionStep v follow ts endMarker) cur = some .accept := by
  obtain ⟨l₁, l₂, rfl⟩ := List.append_of_mem hi
  rw [List.foldl_append, List.foldl_cons, actionStep_accept hnext hs]
  exact List.foldl_fixed' (actionStep_accept_stays hterm) l₂

theorem foldl_actionStep_reduce {items : List Item}
    (hshift : ∀ i ∈ items, i.next? = some a → v.isTerminal a = false)
    (hstart : ∀ i ∈ items, i.atEnd = true → (i.lhs = g.start ∧ i.rhs = [g.origin] ↔ i = g.acceptItem))
    (hacc : a = endMarker → g.acceptItem ∉ items) :
    items.foldl (g.actionStep v follow ts a) none =
      (g.reducers follow items a).getLast?.map fun i =>
        .reduce ((g.ruleIndex? i.lhs i.rhs).getD 0) := by
  induction items using List.reverseRecOn with
  | nil => rfl
  | append_singleton items i ih =>
    have hmem : i ∈ items ++ [i] := List.mem_append_right _ (List.mem_singleton_self i)
    have hsub : ∀ x ∈ items, x ∈ items ++ [i] := fun x hx => List.mem_append_left _ hx
    rw [List.foldl_append, List.foldl_cons, List.foldl_nil,
      ih (fun x hx => hshift x (hsub x hx)) (fun x hx => hstart x (hsub x hx))
        (fun ha hx => hacc ha (hsub _ hx)),
      actionStep_reduce (hshift i hmem) (hstart i hmem) (fun ha hi => hacc ha (hi ▸ hmem)),
      reducers_append_singleton]
    · by_cases hr : i.atEnd = true ∧ i ≠ g.acceptItem ∧ (a ∈ follow i.lhs ∨ a = endMarker)
      · rw [if_pos hr, if_pos hr, List.getLast?_append_of_ne_nil _ (List.cons_ne_nil _ _)]
        rfl
      · rw [if_neg hr, if_neg hr, List.append_nil]
    · cases (g.reducers follow items a).getLast? with
      | none => exact .inl rfl
      | some x => exact .inr ⟨_, rfl⟩

end Sweep

/-! ## Cells of the automaton's states -/

theorem actionOf_eq_slrAction {v : Vocabulary} {follow : Symbol → List Symbol} {st : State}
    (hterm : v.isTerminal endMarker = false) (horigin : g.origin ≠ epsilon)
    (htrans : ∀ x, (∃ i ∈ st.items, i.next? = some x) → (st.transitions.lookup x).isSome)
    (hitems : ∀ i ∈ st.items, g.ItemOf i) (a : Symbol) :
    g.actionOf v follow st a = g.slrAction v follow st a := by
  unfold actionOf slrAction
  by_cases hs : v.isTerminal a = true ∧ ∃ i ∈ st.items, i.next? = some a
  · rw [if_pos hs]
    obtain ⟨j, hj⟩ := Option.isSome_iff_exists.1 (htrans a hs.2)
    obtain ⟨i, hi, hnext⟩ := hs.2
    rw [hj, foldl_actionStep_shift hi hnext hs.1 hterm hj]
    rfl
  · rw [if_neg hs]
    by_cases hacc : a = endMarker ∧ g.acceptItem ∈ st.items
    · obtain ⟨rfl, hmem⟩ := hacc
      rw [if_pos ⟨rfl, hmem⟩]
      exact foldl_actionStep_accept hmem (acceptItem_next? horigin) ⟨rfl, rfl⟩ hterm none
    · rw [if_neg hacc]
      have hshift : ∀ i ∈ st.items, i.next? = some a → v.isTerminal a = false := by
        intro i hi hnext
        cases ht : v.isTerminal a
        · rfl
        · exact absurd ⟨ht, i, hi, hnext⟩ hs
      rw [foldl_actionStep_reduce hshift
        (fun i hi => eq_acceptItem_of_itemOf horigin (hitems i hi))
        (fun ha hmem => hacc ⟨ha, hmem⟩)]
      cases hlast : (g.reducers follow st.items a).getLast? with
      | none => rfl
      | some i =>
        have hmem : i ∈ st.items := (mem_reducers.1 (List.mem_of_getLast? hlast)).1
        obtain ⟨k, hk⟩ := Option.isSome_iff_exists.1 (isSome_ruleIndex? (hitems i hmem))
        simp [hk]

theorem actionOf_eq_slrAction_of_state (hwf : g.WellFormed) {follow : Symbol → List Symbol}
    {s : Nat} {st : State} (hs : g.automaton.states[s]? = some st) (a : Symbol) :
    g.actionOf g.vocabulary follow st a = g.slrAction g.vocabulary follow st a := by
  apply actionOf_eq_slrAction hwf.not_isTerminal_endMarker hwf.origin_ne_epsilon
  · intro x hx
    have htarget := (isSome_target?_iff hs).2 hx
    simpa [Automaton.target?, hs] using htarget
  · exact fun i hi => itemOf_of_mem_states (List.mem_of_getElem? hs) hi

theorem gotoOf_eq_target? {s : Nat} {st : State} (hs : g.automaton.states[s]? = some st)
    (x : Symbol) : gotoOf st x = g.automaton.target? s x := by
  simp [gotoOf, Automaton.target?, hs]

/-- For every grammar read from text and every state of its automaton, the action cells are
`slrAction`, the gotos are the state's transitions and are defined exactly for the symbols after
some dot, and these make the state's row of the analysis table. -/
theorem table_conflict_policy {text : String} {g : Grammar} (hg : Grammar.read text = .ok g)
    {s : Nat} {st : State} (hs : g.analyze.automaton.states[s]? = some st) :
    (∀ a, g.actionOf g.analyze.vocabulary g.analyze.follow st a =
        g.slrAction g.analyze.vocabulary g.analyze.follow st a) ∧
    (∀ N, gotoOf st N = g.analyze.automaton.target? s N ∧
        ((gotoOf st N).isSome ↔ ∃ i ∈ st.items, i.next? = some N)) ∧
    g.analyze.table.rows[s]? = some (g.row g.analyze.vocabulary g.analyze.follow st) := by
  have hwf := read_wellFormed hg
  have hs' : g.automaton.states[s]? = some st := hs
  refine ⟨actionOf_eq_slrAction_of_state hwf hs', fun N => ⟨gotoOf_eq_target? hs' N, ?_⟩, ?_⟩
  · rw [gotoOf_eq_target? hs']
    exact isSome_target?_iff hs'
  · show (g.automaton.states.map (g.row g.vocabulary g.analyze.follow))[s]? = _
    rw [List.getElem?_map, hs']
    rfl

/-- The grammar of the one rule `S -> a`. -/
def oneRule : Grammar := ⟨"S", "S'", [⟨"S", ["a"], some 1⟩]⟩

/-- The conflict policy at the start state of `S -> a`, read from its text. -/
theorem table_conflict_policy_oneRule :
    Grammar.read "S -> a" = .ok oneRule ∧ ∃ st, oneRule.analyze.automaton.states[0]? = some st ∧
      (∀ a, oneRule.actionOf oneRule.analyze.vocabulary oneRule.analyze.follow st a =
          oneRule.slrAction oneRule.analyze.vocabulary oneRule.analyze.follow st a) ∧
      (∀ N, gotoOf st N = oneRule.analyze.automaton.target? 0 N ∧
          ((gotoOf st N).isSome ↔ ∃ i ∈ st.items, i.next? = some N)) ∧
      oneRule.analyze.table.rows[0]? =
        some (oneRule.row oneRule.analyze.vocabulary oneRule.analyze.follow st) := by
  have hread : Grammar.read "S -> a" = .ok oneRule := by rfl
  obtain ⟨st, hst, -⟩ := state_zero (g := oneRule)
  exact ⟨hread, st, hst, table_conflict_policy hread hst⟩

end Grammar

end SimpleLR
