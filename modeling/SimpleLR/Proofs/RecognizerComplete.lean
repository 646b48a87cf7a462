import SimpleLR.Proofs.Forests
import SimpleLR.Proofs.StepBudget
import SimpleLR.Proofs.AcceptCell
/-!
# Completeness of the recognizer

On the table of a grammar without empty alternatives, the recognizer accepts every sentence of
the grammar and returns the rules of its rightmost derivation in reverse (`recognize_complete`).
The condition on the grammar is the SLR(1) condition for the lookaheads that the table uses: a
completed item reduces on what can follow its left-hand side and, in every state, on the end
marker as well.

The proof runs the table along a derivation forest (`Generates.runs`). In a state with an item
`A -> α · X β`, a tree rooted at the terminal `X` is one shift. A tree rooted at a non-terminal
`X` with the rule `X -> γ` goes through the state's item `X -> · γ` (states are closed), then
through the forest of `γ`; the terminal after the tree can follow `X` (`Generates.follow_next`),
so the table reduces there, by the SLR(1) condition with no other action in the cell, and the goto
on `X` reaches a state with `A -> α X · β`. That run ignores the stacks seen since the last shift;
`run_eq_ok_of_accepts` carries it over to the recognizer, whose budget of steps never runs out on
such a grammar (`recognize_ne_outOfSteps`).

A rule that repeats an earlier alternative is reduced by the number of the earlier one
(`firstIndex`). The end marker in every lookahead makes the condition stronger than the textbook
one: in `S -> A | B c`, `A -> x`, `B -> x` the table reduces `x` to `B` at the end of the input,
where the only derivation of `x` reduces it to `A` (`recognize_rejects_unitChoice`).
-/

namespace SimpleLR

namespace Grammar

variable {g : Grammar}

/-- The number that the table reduces by for rule `k`: that of the first rule with the same
left-hand side and alternative. -/
def firstIndex (g : Grammar) (k : Nat) : Nat :=
  match g.rules[k]? with
  | some r => (g.ruleIndex? r.lhs r.rhs).getD k
  | none => k

theorem ruleIndex?_eq_firstIndex {k : Nat} {r : Rule} (hk : g.rules[k]? = some r) :
    g.ruleIndex? r.lhs r.rhs = some (g.firstIndex k) := by
  have hi : g.ItemOf (Item.initial r.lhs r.rhs) :=
    ⟨r, List.mem_of_getElem? hk, rfl, rfl, Nat.zero_le _⟩
  obtain ⟨m, hm⟩ := Option.isSome_iff_exists.1 (isSome_ruleIndex? hi)
  simp only [Item.initial] at hm
  simp [firstIndex, hk, hm]

/-! ## Items of states -/

theorem Item.next?_of_drop_eq_cons {i : Item} {x : Symbol} {xs : List Symbol}
    (h : i.body.drop i.dot = x :: xs) : i.next? = some x := by
  rw [Item.next?, ← List.head?_drop, h]
  rfl

theorem Item.drop_advance {i : Item} {x : Symbol} {xs : List Symbol}
    (h : i.body.drop i.dot = x :: xs) : i.advance.body.drop i.advance.dot = xs := by
  show i.body.drop (i.dot + 1) = xs
  rw [← List.tail_drop, h]
  rfl

theorem Item.advance_dot_add (i : Item) (n : Nat) :
    { i.advance with dot := i.advance.dot + n } = { i with dot := i.dot + (n + 1) } := by
  simp only [Item.advance, Item.mk.injEq, true_and]
  omega

theorem ItemOf.exists_body {i : Item} (hi : g.ItemOf i) :
    ∃ q ∈ g.rules, q.lhs = i.lhs ∧ q.body = i.body := by
  obtain ⟨q, hq, hl, hr, -⟩ := hi
  exact ⟨q, hq, hl, by rw [Rule.body, hr]; rfl⟩

theorem closed_state {s : Nat} {st : State} (hs : g.automaton.states[s]? = some st) :
    g.Closed (· ∈ st.items) := by
  rcases state_discovered hs with rfl | ⟨i, -, st₀, x, -, -, hgoto⟩
  · rw [items_state_zero hs, startItems]
    exact closure_closed _
  · rw [(goto?_eq_some.1 hgoto).2]
    exact closure_closed _

theorem advance_mem_target {s n : Nat} {st : State} (hs : g.automaton.states[s]? = some st)
    {x : Symbol} (hn : g.automaton.target? s x = some n) {i : Item} (hi : i ∈ st.items)
    (hnext : i.next? = some x) : ∃ st', g.automaton.states[n]? = some st' ∧ i.advance ∈ st'.items := by
  obtain ⟨st', next, hst', hgoto, hsame⟩ := target?_goto? hs hn
  exact ⟨st', hst', (hsame _).2 ((mem_goto? hgoto).2 (.inl ⟨i, hi, hnext, rfl⟩))⟩

/-! ## What can come next in the input -/

theorem First.lhs_ne {x a : Symbol} (h : g.First x a) : ∀ r ∈ g.rules, r.lhs ≠ a := by
  induction h with
  | terminal ha => exact ha
  | rule _ _ _ _ ih => exact ih

theorem mem_terminals_of_mem_body (hg : g.Nonerasing) {r : Rule} (hr : r ∈ g.rules) {a : Symbol}
    (ha : a ∈ r.body) (hlhs : ∀ q ∈ g.rules, q.lhs ≠ a) : a ∈ g.vocabulary.terminals := by
  rw [hg.body_eq r hr] at ha
  refine mem_terminals.2 ⟨⟨r, hr, ha⟩, hlhs, ?_, ?_⟩
  · rintro rfl
    exact hg.epsilon_not_mem r hr ha
  · rintro rfl
    exact hg.start_not_mem r hr ha

theorem Follow.mem_actionColumns (hg : g.Nonerasing) {b a : Symbol} (h : g.Follow b a) :
    a ∈ g.vocabulary.actionColumns := by
  induction h with
  | start => simp [Vocabulary.actionColumns]
  | next hr hbody _ hfirst =>
    apply List.mem_append_left
    rcases hfirst.mem_rhs with rfl | ⟨q, hq, ha⟩
    · exact mem_terminals_of_mem_body hg hr (by simp [hbody]) hfirst.lhs_ne
    · exact mem_terminals_of_mem_body hg hq ha hfirst.lhs_ne
  | last _ _ _ _ ih => exact ih

theorem slr_of_slrCheck_endMarker (hg : g.Nonerasing)
    (h : g.slrCheck (fun b => endMarker :: g.follow b) = true) :
    g.SLR fun b a => g.Follow b a ∨ a = endMarker := by
  have hlook : (fun b a => a ∈ endMarker :: g.follow b) =
      fun b a => g.Follow b a ∨ a = endMarker := by
    funext b a
    rw [List.mem_cons, mem_follow_iff hg, or_comm]
  rw [← hlook]
  exact slr_of_slrCheck h

theorem slr_of_slrCheck_follow (hg : g.Nonerasing) (h : g.slrCheck g.follow = true) :
    g.SLR g.Follow := by
  rw [← follow_eq_Follow hg]
  exact slr_of_slrCheck h

/-! ## The cells that a sentence reads -/

section Cells

variable (hg : g.Nonerasing)
  (hsize : fitsWord g.automaton.states.length = true ∧ fitsWord g.rules.length = true)

include hg hsize

theorem action_analyze {s : Nat} {st : State} (hs : g.automaton.states[s]? = some st)
    {a : Symbol} (ha : a ∈ g.vocabulary.actionColumns) :
    g.analyze.table.action s a = .ok (g.slrAction g.vocabulary g.follow st a) := by
  rw [table_analyze, action_tableWith_of_mem hg.wellFormed hs (fitsWord_of_state hsize hs) ha,
    actionOf_eq_slrAction_of_state hg.wellFormed hs, analyze_follow]
  intro x hx
  rw [actionOf_eq_slrAction_of_state hg.wellFormed hs] at hx
  exact arg_lt_of_slrAction hsize hs hx

theorem action_shift {s : Nat} {st : State} (hs : g.automaton.states[s]? = some st) {i : Item}
    (hi : i ∈ st.items) {a : Symbol} (hnext : i.next? = some a)
    (ha : a ∈ g.vocabulary.terminals) :
    ∃ n, g.automaton.target? s a = some n ∧ g.analyze.table.action s a = .ok (some (.shift n)) := by
  obtain ⟨n, hn⟩ := Option.isSome_iff_exists.1 ((isSome_target?_iff hs).2 ⟨i, hi, hnext⟩)
  have hlookup : st.transitions.lookup a = some n := by
    rw [← hn, ← gotoOf_eq_target? hs]
    rfl
  refine ⟨n, hn, ?_⟩
  rw [action_analyze hg hsize hs (List.mem_append_left _ ha), slrAction,
    if_pos ⟨isTerminal_iff.2 ha, i, hi, hnext⟩, hlookup]
  rfl

theorem action_reduce (hslr : g.SLR fun b a => g.Follow b a ∨ a = endMarker) {s : Nat}
    {st : State} (hs : g.automaton.states[s]? = some st) {i : Item} (hi : i ∈ st.items)
    (hend : i.atEnd = true) (hne : i ≠ g.acceptItem) {a : Symbol} (ha : g.Follow i.lhs a)
    {k : Nat} (hk : g.ruleIndex? i.lhs i.rhs = some k) :
    g.analyze.table.action s a = .ok (some (.reduce k)) := by
  have hst : st ∈ g.automaton.states := List.mem_of_getElem? hs
  have hlook : g.Follow i.lhs a ∨ a = endMarker := .inl ha
  have honly : ∀ j ∈ g.reducers g.follow st.items a, j = i := by
    intro j hj
    obtain ⟨hj, hjend, hjne, hjlook⟩ := mem_reducers.1 hj
    by_contra hji
    exact hslr.no_reduce st hst i hi j hj hend hjend hne hjne (Ne.symm hji) a hlook
      (hjlook.imp_left (mem_follow_iff hg).1)
  have hmem : i ∈ g.reducers g.follow st.items a :=
    mem_reducers.2 ⟨hi, hend, hne, .inl ((mem_follow_iff hg).2 ha)⟩
  obtain ⟨j, hj⟩ := Option.isSome_iff_exists.1 (List.getLast?_isSome.2 (List.ne_nil_of_mem hmem))
  obtain rfl := honly j (List.mem_of_getLast? hj)
  rw [action_analyze hg hsize hs (ha.mem_actionColumns hg), slrAction,
    if_neg fun ⟨_, j', hj', hnext⟩ => hslr.no_shift st hst j hi hend hne a hlook j' hj' hnext,
    if_neg fun ⟨hend', hacc⟩ => hslr.no_accept st hst j hi hend hne (hend' ▸ hlook) hacc, hj]
  simp [hk]

theorem action_accept {s : Nat} {st : State} (hs : g.automaton.states[s]? = some st)
    (hacc : g.acceptItem ∈ st.items) : g.analyze.table.action s endMarker = .ok (some .accept) := by
  rw [action_analyze hg hsize hs (by simp [Vocabulary.actionColumns]),
    (slrAction_eq_accept_iff hg.wellFormed g.follow).2 ⟨rfl, hacc⟩]

theorem cell_goto {s : Nat} {st : State} (hs : g.automaton.states[s]? = some st) {r : Rule}
    (hr : r ∈ g.productions) {n : Nat} (hn : g.automaton.target? s r.lhs = some n) :
    g.analyze.table.cell s r.lhs = .ok (.goto n) := by
  rw [table_analyze, cell_tableWith_goto hg.wellFormed hs (fitsWord_of_state hsize hs) hr,
    gotoOf_eq_target? hs, hn]
  rfl

end Cells

/-! ## Running along a forest -/

/-- `g.OnItem c i`: the state on top of the stack of `c` holds the item `i`. -/
def OnItem (g : Grammar) (c : Config) (i : Item) : Prop :=
  ∃ s below st, c.stack = s :: below ∧ g.automaton.states[s]? = some st ∧ i ∈ st.items

section Steps

variable (hg : g.Nonerasing)
  (hsize : fitsWord g.automaton.states.length = true ∧ fitsWord g.rules.length = true)

include hg hsize

theorem OnItem.shift {c : Config} {i : Item} (hc : g.OnItem c i) {a : Symbol}
    (hnext : i.next? = some a) (ha : a ∈ g.vocabulary.terminals) {more : List Symbol}
    (hrest : c.rest = a :: more) :
    ∃ n, g.analyze.table.step g.rules { c with seen := [] } =
        .next { c with stack := n :: c.stack, rest := more, taken := c.taken + 1, seen := [] } ∧
      g.OnItem { c with stack := n :: c.stack, rest := more, taken := c.taken + 1, seen := [] }
        i.advance := by
  obtain ⟨s, below, st, hstack, hs, hi⟩ := hc
  obtain ⟨n, hn, hact⟩ := action_shift hg hsize hs hi hnext ha
  obtain ⟨st', hst', hadv⟩ := advance_mem_target hs hn hi hnext
  exact ⟨n, Table.step_eq_next_iff.2 (.inl ⟨s, below, a, more, n, hstack, hrest, hact, rfl⟩),
    n, c.stack, st', rfl, hst', hadv⟩

theorem OnItem.reduce (hslr : g.SLR fun b a => g.Follow b a ∨ a = endMarker) {k : Nat} {r : Rule}
    (hk : g.rules[k]? = some r) (hr : r ∈ g.productions) {c : Config}
    (hc : g.OnItem c ⟨r.lhs, r.rhs, r.body.length⟩) {s : Nat} {below : List Nat}
    (hdrop : c.stack.drop r.body.length = s :: below) {st : State}
    (hs : g.automaton.states[s]? = some st) {n : Nat} (hn : g.automaton.target? s r.lhs = some n)
    {a : Symbol} (ha : g.Follow r.lhs a) {more : List Symbol} (hrest : c.rest = a :: more) :
    g.analyze.table.step g.rules { c with seen := [] } =
      .next { c with
        stack := n :: s :: below
        reduced := g.firstIndex k :: c.reduced
        seen := [n :: s :: below] } := by
  obtain ⟨t, top, stt, hstack, ht, hi⟩ := hc
  have hend : Item.atEnd ⟨r.lhs, r.rhs, r.body.length⟩ = true := decide_eq_true (Nat.le_refl _)
  have hne : (⟨r.lhs, r.rhs, r.body.length⟩ : Item) ≠ g.acceptItem := fun h =>
    hg.wellFormed.start_ne_lhs r hr (congrArg Item.lhs h)
  have hidx := ruleIndex?_eq_firstIndex hk
  have hact := action_reduce hg hsize hslr ht hi hend hne ha hidx
  obtain ⟨r', hr', hl, hrhs⟩ := ruleIndex?_eq_some hidx
  have hbody : r'.body = r.body := by rw [Rule.body, Rule.body, hrhs]
  refine Table.step_eq_next_iff.2 (.inr ⟨t, top, a, more, g.firstIndex k, r', s, below, n, hstack,
    hrest, hact, hr', ?_, ?_, List.not_mem_nil, rfl⟩)
  · rw [hbody]
    exact hdrop
  · rw [hl]
    exact cell_goto hg hsize hs hr hn

/-- The table runs along a derivation forest. From a configuration on an item whose symbols after
the dot are the roots `Xs`, with the forest's yield `v` next in the input and then a symbol `a`
that can follow the item's left-hand side, it takes a step per terminal and per rule of the
forest. It ends on the item with the dot past `Xs`, with a state pushed per root, `v` taken, `a`
next, and the forest's rules reduced, last first, by their first numbers. -/
theorem Generates.runs (hslr : g.SLR fun b a => g.Follow b a ∨ a = endMarker)
    {Xs v : List Symbol} {ks : List Nat} (h : g.Generates Xs v ks) :
    ∀ {c : Config} {i : Item} {a : Symbol} {ρ : List Symbol}, g.OnItem c i →
      i.body.drop i.dot = Xs → c.rest = v ++ a :: ρ → g.Follow i.lhs a →
      ∃ c', g.analyze.table.Runs g.rules c (v.length + ks.length) c' ∧
        g.OnItem c' { i with dot := i.dot + Xs.length } ∧ c'.stack.drop Xs.length = c.stack ∧
        c'.rest = a :: ρ ∧ c'.taken = c.taken + v.length ∧
        c'.reduced = ks.map g.firstIndex ++ c.reduced := by
  induction h with
  | nil =>
    intro c i a ρ hc _ hrest _
    exact ⟨c, .refl c, by simpa using hc, rfl, by simpa using hrest, rfl, rfl⟩
  | @leaf b Xs v ks hb _ ih =>
    intro c i a ρ hc hdrop hrest ha
    have hnext := Item.next?_of_drop_eq_cons hdrop
    have hterm : b ∈ g.vocabulary.terminals := by
      obtain ⟨s, below, st, -, hs, hi⟩ := hc
      obtain ⟨q, hq, -, hqbody⟩ := (itemOf_of_mem_states (List.mem_of_getElem? hs) hi).exists_body
      have hmem : b ∈ i.body.drop i.dot := by simp [hdrop]
      exact mem_terminals_of_mem_body hg hq (hqbody ▸ List.mem_of_mem_drop hmem) hb
    obtain ⟨n, hstep, hc₁⟩ := hc.shift hg hsize hnext hterm hrest
    obtain ⟨c', hruns, hc', hstack, hrest', htaken, hred⟩ :=
      ih hc₁ (Item.drop_advance hdrop) rfl ha
    refine ⟨c', ?_, ?_, ?_, hrest', ?_, hred⟩
    · rw [List.length_cons, Nat.add_right_comm]
      exact .step hstep hruns
    · rw [List.length_cons, ← Item.advance_dot_add]
      exact hc'
    · rw [List.length_cons, ← List.tail_drop, hstack]
      rfl
    · have htaken₁ : c'.taken = c.taken + 1 + v.length := htaken
      rw [htaken₁, List.length_cons]
      omega
  | @node k r Xs u v ks₁ ks₂ hk _ hrest' _ ihrest =>
    rename_i ihbody
    intro c i a ρ hc hdrop hrest ha
    have hnext := Item.next?_of_drop_eq_cons hdrop
    obtain ⟨s, below, st, hstack, hs, hi⟩ := hc
    obtain ⟨q, hq, hql, hqbody⟩ := (itemOf_of_mem_states (List.mem_of_getElem? hs) hi).exists_body
    have hsplit : q.body = i.body.take i.dot ++ r.lhs :: Xs := by
      rw [hqbody, ← hdrop, List.take_append_drop]
    have hprod : r ∈ g.productions := hg.mem_productions (List.mem_of_getElem? hk)
      ⟨q, hq, by rw [← hg.body_eq q hq, hsplit]; simp⟩
    obtain ⟨b, ρ', hvρ, hb⟩ := hrest'.follow_next hg hq hsplit (hql ▸ ha) ρ
    have hinit : Item.initial r.lhs r.rhs ∈ st.items :=
      closed_state hs i _ hi ⟨r.lhs, hnext, r.rhs, mem_alternatives.2 ⟨r, hprod, rfl, rfl⟩, rfl⟩
    obtain ⟨c₁, hruns₁, hc₁, hstack₁, hrest₁, htaken₁, hred₁⟩ :=
      ihbody ⟨s, below, st, hstack, hs, hinit⟩ rfl (by rw [hrest, List.append_assoc, hvρ]) hb
    obtain ⟨n, hn⟩ := Option.isSome_iff_exists.1 ((isSome_target?_iff hs).2 ⟨i, hi, hnext⟩)
    have hc₁' : g.OnItem c₁ ⟨r.lhs, r.rhs, r.body.length⟩ := by
      simpa [Item.initial] using hc₁
    have hstep := hc₁'.reduce hg hsize hslr hk hprod (hstack₁.trans hstack) hs hn hb hrest₁
    obtain ⟨st', hst', hadv⟩ := advance_mem_target hs hn hi hnext
    have hc₂ : g.OnItem { c₁ with
        stack := n :: s :: below
        reduced := g.firstIndex k :: c₁.reduced
        seen := [n :: s :: below] } i.advance :=
      ⟨n, s :: below, st', rfl, hst', hadv⟩
    obtain ⟨c', hruns', hc', hstack', hrest'', htaken', hred'⟩ :=
      ihrest hc₂ (Item.drop_advance hdrop) (hrest₁.trans hvρ.symm) ha
    have hcount : (u ++ v).length + (ks₂ ++ k :: ks₁).length =
        u.length + ks₁.length + (v.length + ks₂.length + 1) := by
      simp only [List.length_append, List.length_cons]
      omega
    refine ⟨c', ?_, ?_, ?_, hrest'', ?_, ?_⟩
    · rw [hcount]
      exact hruns₁.trans (.step hstep hruns')
    · rw [List.length_cons, ← Item.advance_dot_add]
      exact hc'
    · rw [List.length_cons, ← List.tail_drop, hstack', hstack]
      rfl
    · rw [htaken', show c₁.taken = c.taken + u.length from htaken₁, List.length_append]
      omega
    · rw [hred']
      simp [hred₁]

theorem accepts_of_derives (hslr : g.SLR fun b a => g.Follow b a ∨ a = endMarker)
    {w : List Symbol} {ks : List Nat} (hw : ∀ a ∈ w, a ∈ g.vocabulary.terminals)
    (hd : g.Derives [g.origin] ks w) :
    g.analyze.table.Accepts g.rules (Table.start w) (w.length + ks.length)
      (ks.map g.firstIndex).reverse := by
  have hwf := hg.wellFormed
  have hforest : g.Generates [g.origin] w ks :=
    hd.generates fun a ha => (mem_terminals.1 (hw a ha)).2.1
  obtain ⟨st₀, hs₀, hitems⟩ := state_zero (g := g)
  have hc : g.OnItem (Table.start w) (Item.initial g.start [g.origin]) :=
    ⟨0, [], st₀, rfl, hs₀, hitems ▸ initialStart_mem_startItems⟩
  have hbody : (Item.initial g.start [g.origin]).body.drop 0 = [g.origin] := by
    simp [Item.initial, Item.body, bodyOf, hwf.origin_ne_epsilon]
  have hrest : (Table.start w).rest = w ++ [endMarker] := by
    rw [Table.start, List.filter_eq_self.2]
    intro a ha
    simpa using hwf.ne_endMarker_of_isTerminal (isTerminal_iff.2 (hw a ha))
  obtain ⟨c', hruns, hc', -, hrest', -, hred⟩ := hforest.runs hg hsize hslr hc hbody hrest .start
  obtain ⟨t, top, st, hstack, ht, hacc⟩ := hc'
  refine ⟨c', hruns, Table.step_eq_accepted_iff.2 ⟨t, top, endMarker, [], hstack, hrest',
    action_accept hg hsize ht hacc, ?_⟩⟩
  simp [hred, Table.start]

end Steps

/-- The recognizer is complete for grammars without empty alternatives that meet the SLR(1)
condition with the end marker in every lookahead: it accepts every sentence of terminals with a
rightmost derivation from the start symbol and returns the derivation's rules in reverse, each
by the number of the first rule with its alternative. -/
theorem recognize_complete {text : String} {g : Grammar} (hread : Grammar.read text = .ok g)
    (hfree : g.EpsilonFree) (hslr : g.SLR fun b a => g.Follow b a ∨ a = endMarker)
    (hsize : fitsWord g.analyze.automaton.states.length = true ∧ fitsWord g.rules.length = true)
    {w : List Symbol} {ks : List Nat} (hw : ∀ a ∈ w, a ∈ g.analyze.vocabulary.terminals)
    (hd : g.Derives [g.origin] ks w) :
    g.analyze.table.recognize g.rules w = .ok (ks.map g.firstIndex).reverse := by
  have hg := nonerasing_of_read hread hfree
  have hrun : g.analyze.table.run g.rules (w.length + ks.length + 1) (Table.start w) =
      .ok (ks.map g.firstIndex).reverse :=
    Table.run_eq_ok_of_accepts (accepts_of_derives hg hsize hslr hw hd) (fun _ h => nomatch h)
      (Nat.lt_succ_self _)
  -- the run with the budget of steps ends as the shorter or the longer one
  rcases Nat.le_total (w.length + ks.length + 1) (g.analyze.table.stepBudget g.rules w)
    with hle | hle
  · rw [Table.recognize, Table.run_eq_of_ne_outOfSteps (by rw [hrun]; simp) hle, hrun]
  · rw [Table.recognize, ← Table.run_eq_of_ne_outOfSteps (recognize_ne_outOfSteps hg w) hle, hrun]

set_option maxRecDepth 4000 in
/-- In the grammar of sums the recognizer returns the reversed derivation of `id + id`. -/
theorem recognize_complete_sums :
    Grammar.read "E -> E + T | T\nT -> id" = .ok sums ∧ sums.EpsilonFree ∧
      sums.SLR (fun b a => sums.Follow b a ∨ a = endMarker) ∧
      sums.Derives [sums.origin] [1, 3, 2, 3] ["id", "+", "id"] ∧
      sums.analyze.table.recognize sums.rules ["id", "+", "id"] =
        .ok ([1, 3, 2, 3].map sums.firstIndex).reverse := by
  have hread : Grammar.read "E -> E + T | T\nT -> id" = .ok sums := by rfl
  have hfree : sums.EpsilonFree := by decide
  have hslr : sums.SLR fun b a => sums.Follow b a ∨ a = endMarker :=
    slr_of_slrCheck_endMarker (nonerasing_of_read hread hfree) (by cbv)
  have hstates : sums.analyze.automaton.states.length = 6 := by cbv
  have hsize : fitsWord sums.analyze.automaton.states.length = true ∧
      fitsWord sums.rules.length = true := by
    rw [hstates]
    exact ⟨by decide, by decide⟩
  have hw : ∀ a ∈ ["id", "+", "id"], a ∈ sums.analyze.vocabulary.terminals := by decide
  -- E ⇒ E + T ⇒ E + id ⇒ T + id ⇒ id + id
  have hd : sums.Derives [sums.origin] [1, 3, 2, 3] ["id", "+", "id"] :=
    @Derives.step sums [] [] _ 1 _ ⟨"E", ["E", "+", "T"], some 1⟩ rfl (by decide)
      (@Derives.step sums ["E", "+"] [] _ 3 _ ⟨"T", ["id"], some 2⟩ rfl (by decide)
        (@Derives.step sums [] ["+", "id"] _ 2 _ ⟨"E", ["T"], some 1⟩ rfl (by decide)
          (@Derives.step sums [] ["+", "id"] _ 3 [] ⟨"T", ["id"], some 2⟩ rfl (by decide)
            (.refl _))))
  exact ⟨hread, hfree, hslr, hd, recognize_complete hread hfree hslr hsize hw hd⟩

/-- The grammar `S -> A | B c`, `A -> x`, `B -> x`. -/
def unitChoice : Grammar :=
  ⟨"S", "S'", [⟨"S", ["A"], some 1⟩, ⟨"S", ["B", "c"], some 1⟩, ⟨"A", ["x"], some 2⟩,
    ⟨"B", ["x"], some 3⟩]⟩

set_option maxRecDepth 8000 in
/-- The grammar `S -> A | B c`, `A -> x`, `B -> x` has no empty alternative and meets the
textbook SLR(1) condition, and the rules 1 and 3 derive `x`; yet the table rejects `x`. After `x`
the end marker may follow `A` only, but the table reduces every completed item on the end marker
too, and the later item `B -> x ·` wins the cell; after the goto on `B` only `c` may come. -/
theorem recognize_rejects_unitChoice :
    Grammar.read "S -> A | B c\nA -> x\nB -> x" = .ok unitChoice ∧ unitChoice.EpsilonFree ∧
      unitChoice.SLR unitChoice.Follow ∧
      (∀ a ∈ ["x"], a ∈ unitChoice.analyze.vocabulary.terminals) ∧
      unitChoice.Derives [unitChoice.origin] [1, 3] ["x"] ∧
      unitChoice.analyze.table.recognize unitChoice.rules ["x"] = .error (.noAction 3 none ["c"]) := by
  have hread : Grammar.read "S -> A | B c\nA -> x\nB -> x" = .ok unitChoice := by rfl
  have hfree : unitChoice.EpsilonFree := by decide
  have hrun : unitChoice.analyze.table.recognize unitChoice.rules ["x"] =
      .error (.noAction 3 none ["c"]) := by
    simp only [Table.recognize, Table.stepBudget, Nat.pow_eq]
    cbv
  refine ⟨hread, hfree, slr_of_slrCheck_follow (nonerasing_of_read hread hfree) (by cbv),
    by decide, ?_, hrun⟩
  -- S ⇒ A ⇒ x
  exact @Derives.step unitChoice [] [] _ 1 _ ⟨"S", ["A"], some 1⟩ rfl (by decide)
    (@Derives.step unitChoice [] [] _ 3 [] ⟨"A", ["x"], some 2⟩ rfl (by decide) (.refl _))

end Grammar

end SimpleLR
