import SimpleLR.Automaton.Basic
import SimpleLR.Proofs.ItemKey
import SimpleLR.Proofs.Closure
import Mathlib.Data.List.Sublists
/-!
# The worklist builds the canonical LR(0) collection

The automaton's states are found by a worklist that expands the states in number order; a
goto that leads to an item set with a new key is a new state, numbered next. The invariant
`Explored` of the worklist says what the states found so far and the transitions of those
expanded so far are: distinct item sets of the grammar's items, state 0 the closure of the
start item, each transition leading to a state with the items of the goto, and each state
after state 0 found as the goto of an earlier one. Since the keys of distinct item sets of the
grammar's `n` items are distinct sublists of those items, there are at most `2 ^ n` states, so
the worklist runs out of states before it runs out of fuel.

The main statement, `automaton_canonical`: state 0 is the closure of the start item, the states
have distinct keys and hold items of the grammar, a state has a transition on exactly the
symbols after its dots, each to a state with the items of the goto, every state is reached
from state 0, the edges are the transitions, and the states' item sets are the least family
that holds the initial closure and is closed under goto.
-/

namespace SimpleLR

theorem lookup_eq_some_iff_mem {β : Type} {ts : List (Symbol × β)} (hts : (ts.map (·.1)).Nodup)
    {x : Symbol} {b : β} : ts.lookup x = some b ↔ (x, b) ∈ ts := by
  induction ts with
  | nil => simp
  | cons p ts ih =>
    obtain ⟨y, c⟩ := p
    simp only [List.map_cons, List.nodup_cons, List.mem_map] at hts
    rw [List.lookup_cons]
    by_cases hxy : x = y
    · subst hxy
      simp only [beq_self_eq_true, Option.some.injEq, List.mem_cons, Prod.mk.injEq, true_and]
      constructor
      · exact fun h => .inl h.symm
      · rintro (h | h)
        · exact h.symm
        · exact absurd ⟨_, h, rfl⟩ hts.1
    · have hne : (x == y) = false := by simpa using hxy
      rw [hne, ih hts.2, List.mem_cons]
      simp [hxy]

namespace Grammar

/-- The item sets found so far have pairwise different keys. -/
def Distinct (found : List (List Item)) : Prop := (found.map itemSetKey).Nodup

/-! ## Discovering an item set -/

theorem discover_cases (found : List (List Item)) (items : List Item) :
    ((discover found items).2 = found ∧
        ∃ I, found[(discover found items).1]? = some I ∧ ∀ y, y ∈ I ↔ y ∈ items) ∨
      ((discover found items).2 = found ++ [items] ∧ (discover found items).1 = found.length ∧
        ∀ I ∈ found, itemSetKey I ≠ itemSetKey items) := by
  unfold discover
  cases h : found.findIdx? (sameItemSet · items) with
  | some n =>
    obtain ⟨hn, hp, -⟩ := List.findIdx?_eq_some_iff_getElem.1 h
    exact .inl ⟨rfl, found[n], List.getElem?_eq_getElem hn, sameItemSet_iff.1 hp⟩
  | none =>
    refine .inr ⟨rfl, rfl, fun I hI hkey => ?_⟩
    have hno := List.findIdx?_eq_none_iff.1 h I hI
    simp [sameItemSet, hkey] at hno

theorem prefix_discover (found : List (List Item)) (items : List Item) :
    found <+: (discover found items).2 := by
  rcases discover_cases found items with ⟨h, -⟩ | ⟨h, -⟩
  · exact ⟨[], by rw [h, List.append_nil]⟩
  · exact ⟨[items], h.symm⟩

theorem distinct_discover {found : List (List Item)} (hd : Distinct found) (items : List Item) :
    Distinct (discover found items).2 := by
  rcases discover_cases found items with ⟨h, -⟩ | ⟨h, -, hnew⟩ <;> rw [h]
  · exact hd
  · unfold Distinct at hd ⊢
    rw [List.map_append, List.nodup_append]
    refine ⟨hd, List.nodup_singleton _, ?_⟩
    intro a ha b hb
    obtain ⟨I, hI, rfl⟩ := List.mem_map.1 ha
    simp only [List.map_cons, List.map_nil, List.mem_singleton] at hb
    exact hb ▸ hnew I hI

theorem discover_getElem? (found : List (List Item)) (items : List Item) :
    ∃ I, (discover found items).2[(discover found items).1]? = some I ∧
      ∀ y, y ∈ I ↔ y ∈ items := by
  rcases discover_cases found items with ⟨h, I, hI, hsame⟩ | ⟨h, hn, -⟩
  · refine ⟨I, ?_, hsame⟩
    rw [h]
    exact hI
  · refine ⟨items, ?_, fun _ => Iff.rfl⟩
    rw [h, hn]
    simp

/-! ## Expanding a state -/

/-- One symbol of the expansion of the state with items `items`. -/
def expandStep (g : Grammar) (items : List Item) (acc : List (Symbol × Nat) × List (List Item)) (x : Symbol) :
    List (Symbol × Nat) × List (List Item) :=
  match g.goto? items x with
  | none => acc
  | some next => (acc.1 ++ [(x, (discover acc.2 next).1)], (discover acc.2 next).2)

variable {g : Grammar}

theorem expand_eq (items : List Item) (found : List (List Item)) :
    g.expand items found = (symbolsAfterDot items).foldl (g.expandStep items) ([], found) :=
  rfl

/-- What the expansion of `items` from the found sets `found0` has made so far: more found
sets, still distinct; transitions to found sets with the items of the goto; and each new set
found as the goto on a symbol that has a transition to it. -/
structure ExpandInv (g : Grammar) (items : List Item) (found0 : List (List Item))
    (acc : List (Symbol × Nat) × List (List Item)) : Prop where
  prefix_found : found0 <+: acc.2
  distinct : Distinct acc.2
  targets : ∀ x n, (x, n) ∈ acc.1 →
    ∃ I next, acc.2[n]? = some I ∧ g.goto? items x = some next ∧ ∀ y, y ∈ I ↔ y ∈ next
  fresh : ∀ t I, found0.length ≤ t → acc.2[t]? = some I →
    ∃ x, (x, t) ∈ acc.1 ∧ g.goto? items x = some I

theorem ExpandInv.step {items : List Item} {found0 : List (List Item)}
    {acc : List (Symbol × Nat) × List (List Item)} (h : ExpandInv g items found0 acc)
    (x : Symbol) : ExpandInv g items found0 (g.expandStep items acc x) := by
  unfold expandStep
  cases hx : g.goto? items x with
  | none => exact h
  | some next =>
    have hpre := prefix_discover acc.2 next
    refine ⟨h.prefix_found.trans hpre, distinct_discover h.distinct next, ?_, ?_⟩
    · intro x' n hmem
      rcases List.mem_append.1 hmem with hmem | hmem
      · obtain ⟨I, J, hI, hJ, hsame⟩ := h.targets x' n hmem
        have hn : n < acc.2.length := (List.getElem?_eq_some_iff.1 hI).1
        exact ⟨I, J, by rw [List.prefix_iff_getElem?.1 hpre n hn, ← hI,
          List.getElem?_eq_getElem hn], hJ, hsame⟩
      · simp only [List.mem_singleton, Prod.mk.injEq] at hmem
        obtain ⟨rfl, rfl⟩ := hmem
        obtain ⟨I, hI, hsame⟩ := discover_getElem? acc.2 next
        exact ⟨I, next, hI, hx, hsame⟩
    · intro t I ht hI
      by_cases hlt : t < acc.2.length
      · have hold : acc.2[t]? = some I := by
          rw [← hI, List.prefix_iff_getElem?.1 hpre t hlt, List.getElem?_eq_getElem hlt]
        obtain ⟨x', hmem, hgoto⟩ := h.fresh t I ht hold
        exact ⟨x', List.mem_append_left _ hmem, hgoto⟩
      · rcases discover_cases acc.2 next with ⟨hsame, -⟩ | ⟨hnew, hn, -⟩
        · rw [hsame] at hI
          exact absurd (List.getElem?_eq_some_iff.1 hI).1 hlt
        · rw [hnew] at hI
          have hlen := (List.getElem?_eq_some_iff.1 hI).1
          simp only [List.length_append, List.length_singleton] at hlen
          have htl : t = acc.2.length := by omega
          subst htl
          simp only [List.getElem?_append_right (Nat.le_refl _), Nat.sub_self,
            List.getElem?_cons_zero, Option.some.injEq] at hI
          subst hI
          exact ⟨x, by simp [hn], hx⟩

theorem expandInv_foldl {items : List Item} {found0 : List (List Item)} (xs : List Symbol) :
    ∀ {acc}, ExpandInv g items found0 acc → ExpandInv g items found0 (xs.foldl (g.expandStep items) acc) := by
  induction xs with
  | nil => exact id
  | cons x xs ih => exact fun h => ih (h.step x)

theorem expandInv_expand {items : List Item} {found : List (List Item)} (hd : Distinct found) :
    ExpandInv g items found (g.expand items found) := by
  rw [expand_eq]
  apply expandInv_foldl
  refine ⟨List.prefix_refl _, hd, by simp, fun t I ht hI => ?_⟩
  exact absurd (List.getElem?_eq_some_iff.1 hI).1 (Nat.not_lt.2 ht)

theorem map_fst_expand (items : List Item) (found : List (List Item)) :
    (g.expand items found).1.map (·.1) = symbolsAfterDot items := by
  rw [expand_eq]
  suffices h : ∀ (xs : List Symbol) (acc : List (Symbol × Nat) × List (List Item)),
      (∀ x ∈ xs, x ∈ symbolsAfterDot items) →
        (xs.foldl (g.expandStep items) acc).1.map (·.1) = acc.1.map (·.1) ++ xs by
    simpa using h _ ([], found) fun _ hx => hx
  intro xs
  induction xs with
  | nil => simp
  | cons x xs ih =>
    intro acc hxs
    have hsome : (g.goto? items x).isSome := isSome_goto?.2
      (mem_symbolsAfterDot.1 (hxs x List.mem_cons_self))
    rw [List.foldl_cons, ih _ fun y hy => hxs y (List.mem_cons_of_mem _ hy)]
    unfold expandStep
    obtain ⟨next, hnext⟩ := Option.isSome_iff_exists.1 hsome
    rw [hnext]
    simp

/-! ## The worklist -/

variable (g) in
/-- The items of state 0: the closure of the augmented start item `S' -> · S`. -/
def startItems : List Item := g.closure [Item.initial g.start [g.origin]]

variable (g) in
/-- The item sets and transitions that the worklist ends with. -/
def explored : List (List Item) × List (List (Symbol × Nat)) :=
  g.explore (Nat.pow 2 g.itemUniverse.length + 1) [g.startItems] []

theorem automaton_eq :
    g.automaton = ⟨g.explored.1.zipWith (fun items ts => ⟨items, ts⟩) g.explored.2⟩ :=
  rfl

theorem explore_succ (fuel : Nat) (found : List (List Item)) (done : List (List (Symbol × Nat))) :
    g.explore (fuel + 1) found done =
      match found[done.length]? with
      | none => (found, done)
      | some items => g.explore fuel (g.expand items found).2 (done ++ [(g.expand items found).1]) :=
  rfl

theorem itemOf_start : g.ItemOf (Item.initial g.start [g.origin]) :=
  ⟨g.startRule, List.mem_cons_self, rfl, rfl, Nat.zero_le _⟩

/-- The worklist's invariant, for the item sets `found` so far and the transitions `done` of
the states expanded so far. -/
structure Explored (g : Grammar) (found : List (List Item)) (done : List (List (Symbol × Nat))) :
    Prop where
  start : found[0]? = some g.startItems
  distinct : Distinct found
  itemOf : ∀ I ∈ found, ∀ x ∈ I, g.ItemOf x
  done_le : done.length ≤ found.length
  keys : ∀ (i : Nat) (I : List Item) (ts : List (Symbol × Nat)), found[i]? = some I →
    done[i]? = some ts → ts.map (·.1) = symbolsAfterDot I
  targets : ∀ (i : Nat) (I : List Item) (ts : List (Symbol × Nat)), found[i]? = some I →
    done[i]? = some ts → ∀ x n, (x, n) ∈ ts →
      ∃ I' next, found[n]? = some I' ∧ g.goto? I x = some next ∧ ∀ y, y ∈ I' ↔ y ∈ next
  discovered : ∀ (t : Nat) (I : List Item), found[t]? = some I → t = 0 ∨
    ∃ i < t, ∃ I₀ ts x, found[i]? = some I₀ ∧ done[i]? = some ts ∧ (x, t) ∈ ts ∧
      g.goto? I₀ x = some I

theorem Explored.init : Explored g [g.startItems] [] where
  start := rfl
  distinct := List.nodup_singleton _
  itemOf := by
    intro I hI
    rw [List.mem_singleton.1 hI]
    exact itemOf_closure fun x hx => List.mem_singleton.1 hx ▸ itemOf_start
  done_le := by simp
  keys := by simp
  targets := by simp
  discovered := by
    intro t I hI
    have ht := (List.getElem?_eq_some_iff.1 hI).1
    simp only [List.length_singleton] at ht
    exact .inl (by omega)

theorem Explored.step {found : List (List Item)} {done : List (List (Symbol × Nat))}
    (h : Explored g found done) {items : List Item} (hitems : found[done.length]? = some items) :
    Explored g (g.expand items found).2 (done ++ [(g.expand items found).1]) := by
  have he : ExpandInv g items found (g.expand items found) := expandInv_expand h.distinct
  have hpre := he.prefix_found
  have hlen : done.length < found.length := (List.getElem?_eq_some_iff.1 hitems).1
  have hold : ∀ {n : Nat} {I : List Item}, found[n]? = some I → (g.expand items found).2[n]? = some I := by
    intro n I hI
    have hn := (List.getElem?_eq_some_iff.1 hI).1
    rw [List.prefix_iff_getElem?.1 hpre n hn, ← hI, List.getElem?_eq_getElem hn]
  have hitems' := hold hitems
  have hdone : ∀ {i : Nat} {ts : List (Symbol × Nat)}, (done ++ [(g.expand items found).1])[i]? = some ts →
      done[i]? = some ts ∨ i = done.length ∧ ts = (g.expand items found).1 := by
    intro i ts hts
    rcases Nat.lt_or_ge i done.length with hi | hi
    · rw [List.getElem?_append_left hi] at hts
      exact .inl hts
    · have hi' := (List.getElem?_eq_some_iff.1 hts).1
      simp only [List.length_append, List.length_singleton] at hi'
      have : i = done.length := by omega
      subst this
      simp only [List.getElem?_append_right (Nat.le_refl _), Nat.sub_self,
        List.getElem?_cons_zero, Option.some.injEq] at hts
      exact .inr ⟨rfl, hts.symm⟩
  have hnew : ∀ {t : Nat} {I : List Item}, (g.expand items found).2[t]? = some I →
      found[t]? = some I ∨ found.length ≤ t ∧
        ∃ x, (x, t) ∈ (g.expand items found).1 ∧ g.goto? items x = some I := by
    intro t I hI
    rcases Nat.lt_or_ge t found.length with ht | ht
    · left
      rw [← hI, List.prefix_iff_getElem?.1 hpre t ht, List.getElem?_eq_getElem ht]
    · exact .inr ⟨ht, he.fresh t I ht hI⟩
  refine ⟨?_, he.distinct, ?_, ?_, ?_, ?_, ?_⟩
  · exact hold h.start
  · intro I hI x hx
    obtain ⟨t, ht⟩ := List.mem_iff_getElem?.1 hI
    rcases hnew ht with ht | ⟨-, y, -, hgoto⟩
    · exact h.itemOf I (List.mem_of_getElem? ht) x hx
    · exact itemOf_goto? hgoto (h.itemOf items (List.mem_of_getElem? hitems)) x hx
  · have := List.IsPrefix.length_le hpre
    simp only [List.length_append, List.length_singleton]
    omega
  · intro i I ts hI hts
    rcases hdone hts with hts | ⟨rfl, rfl⟩
    · have hi := (List.getElem?_eq_some_iff.1 hts).1
      have hI' : found[i]? = some I := by
        rw [← hI, List.prefix_iff_getElem?.1 hpre i (by omega), List.getElem?_eq_getElem]
      exact h.keys i I ts hI' hts
    · rw [hitems'] at hI
      cases hI
      exact map_fst_expand _ _
  · intro i I ts hI hts x n hxn
    rcases hdone hts with hts | ⟨rfl, rfl⟩
    · have hi := (List.getElem?_eq_some_iff.1 hts).1
      have hI' : found[i]? = some I := by
        rw [← hI, List.prefix_iff_getElem?.1 hpre i (by omega), List.getElem?_eq_getElem]
      obtain ⟨I', next, hI'', hgoto, hsame⟩ := h.targets i I ts hI' hts x n hxn
      exact ⟨I', next, hold hI'', hgoto, hsame⟩
    · rw [hitems'] at hI
      cases hI
      exact he.targets x n hxn
  · intro t I hI
    rcases hnew hI with hI | ⟨ht, x, hmem, hgoto⟩
    · rcases h.discovered t I hI with h0 | ⟨i, hit, I₀, ts, x, hI₀, hts, hmem, hgoto⟩
      · exact .inl h0
      · have hi := (List.getElem?_eq_some_iff.1 hts).1
        exact .inr ⟨i, hit, I₀, ts, x, hold hI₀, by rw [List.getElem?_append_left hi]; exact hts,
          hmem, hgoto⟩
    · exact .inr ⟨done.length, by omega, items, _, x, hitems', by simp, hmem, hgoto⟩

theorem itemOf_iff_mem_itemUniverse {x : Item} : g.ItemOf x ↔ x ∈ g.itemUniverse := by
  simp only [ItemOf, itemUniverse, List.mem_flatMap, List.mem_map, List.mem_range]
  constructor
  · rintro ⟨r, hr, hl, hrhs, hd⟩
    refine ⟨r, hr, x.dot, ?_, ?_⟩
    · have : x.body.length = r.body.length := by simp [Item.body, Rule.body, hrhs]
      omega
    · cases x
      simp_all
  · rintro ⟨r, hr, d, hd, rfl⟩
    exact ⟨r, hr, rfl, rfl, by simp [Item.body, Rule.body] at hd ⊢; omega⟩

theorem length_le_of_distinct {found : List (List Item)} (U : List Item) (hd : Distinct found)
    (hU : ∀ I ∈ found, ∀ x ∈ I, x ∈ U) : found.length ≤ Nat.pow 2 U.length := by
  let sub (I : List Item) : List Item := U.filter fun x => decide (x ∈ I)
  have hsame : ∀ I ∈ found, ∀ y, y ∈ sub I ↔ y ∈ I := by
    intro I hI y
    simp only [sub, List.mem_filter, decide_eq_true_eq]
    exact ⟨fun h => h.2, fun h => ⟨hU I hI y h, h⟩⟩
  have hkeys : (found.map sub).map itemSetKey = found.map itemSetKey := by
    rw [List.map_map]
    exact List.map_congr_left fun I hI => itemSetKey_eq_iff.2 (hsame I hI)
  have hnd : (found.map sub).Nodup := List.Nodup.of_map itemSetKey (hkeys ▸ hd)
  have hsub : found.map sub ⊆ U.sublists := by
    intro s hs
    obtain ⟨I, -, rfl⟩ := List.mem_map.1 hs
    exact List.mem_sublists.2 List.filter_sublist
  calc found.length = (found.map sub).length := (List.length_map _).symm
    _ ≤ U.sublists.length := (hnd.subperm hsub).length_le
    _ = Nat.pow 2 U.length := List.length_sublists U

theorem explore_spec {fuel : Nat} {found : List (List Item)} {done : List (List (Symbol × Nat))}
    (h : Explored g found done) (hfuel : Nat.pow 2 g.itemUniverse.length < fuel + done.length) :
    Explored g (g.explore fuel found done).1 (g.explore fuel found done).2 ∧
      (g.explore fuel found done).2.length = (g.explore fuel found done).1.length := by
  induction fuel generalizing found done with
  | zero =>
    have hbound := length_le_of_distinct g.itemUniverse h.distinct
      fun I hI x hx => itemOf_iff_mem_itemUniverse.1 (h.itemOf I hI x hx)
    have := h.done_le
    omega
  | succ fuel ih =>
    rw [explore_succ]
    cases hf : found[done.length]? with
    | none =>
      have := List.getElem?_eq_none_iff.1 hf
      exact ⟨h, Nat.le_antisymm h.done_le this⟩
    | some items =>
      apply ih (h.step hf)
      simp only [List.length_append, List.length_singleton]
      omega

theorem explored_spec :
    Explored g g.explored.1 g.explored.2 ∧ g.explored.2.length = g.explored.1.length :=
  explore_spec Explored.init (by simp)

/-! ## The states and transitions of the automaton -/

theorem length_states : g.automaton.states.length = g.explored.1.length := by
  rw [automaton_eq]
  simp [List.length_zipWith, explored_spec.2]

theorem getElem?_states {s : Nat} {st : State} :
    g.automaton.states[s]? = some st ↔
      g.explored.1[s]? = some st.items ∧ g.explored.2[s]? = some st.transitions := by
  rw [automaton_eq]
  simp only [List.getElem?_zipWith_eq_some]
  constructor
  · rintro ⟨I, ts, hI, hts, rfl⟩
    exact ⟨hI, hts⟩
  · rintro ⟨hI, hts⟩
    exact ⟨_, _, hI, hts, rfl⟩

theorem exists_state_of_found {s : Nat} {I : List Item} (hI : g.explored.1[s]? = some I) :
    ∃ st, g.automaton.states[s]? = some st ∧ st.items = I := by
  have hs : s < g.explored.2.length := by
    rw [explored_spec.2]
    exact (List.getElem?_eq_some_iff.1 hI).1
  exact ⟨⟨I, g.explored.2[s]⟩, getElem?_states.2 ⟨hI, List.getElem?_eq_getElem hs⟩, rfl⟩

theorem state_zero : ∃ st, g.automaton.states[0]? = some st ∧ st.items = g.startItems :=
  exists_state_of_found explored_spec.1.start

theorem itemOf_of_mem_states {st : State} (hst : st ∈ g.automaton.states) {x : Item}
    (hx : x ∈ st.items) : g.ItemOf x := by
  obtain ⟨s, hs⟩ := List.mem_iff_getElem?.1 hst
  exact explored_spec.1.itemOf _ (List.mem_of_getElem? (getElem?_states.1 hs).1) x hx

theorem keys_transitions {s : Nat} {st : State} (hs : g.automaton.states[s]? = some st) :
    st.transitions.map (·.1) = symbolsAfterDot st.items :=
  explored_spec.1.keys s _ _ (getElem?_states.1 hs).1 (getElem?_states.1 hs).2

theorem target?_eq_some_iff {s : Nat} {st : State} (hs : g.automaton.states[s]? = some st)
    {x : Symbol} {t : Nat} : g.automaton.target? s x = some t ↔ (x, t) ∈ st.transitions := by
  simp only [Automaton.target?, hs, Option.bind_some]
  apply lookup_eq_some_iff_mem
  rw [keys_transitions hs]
  exact nodup_eraseDups _

theorem isSome_target?_iff {s : Nat} {st : State} (hs : g.automaton.states[s]? = some st)
    {x : Symbol} : (g.automaton.target? s x).isSome ↔ ∃ i ∈ st.items, i.next? = some x := by
  rw [← mem_symbolsAfterDot, ← keys_transitions hs]
  simp only [Automaton.target?, hs, Option.bind_some, List.lookup_isSome_iff, List.mem_map,
    beq_iff_eq]
  constructor
  · rintro ⟨p, hp, rfl⟩
    exact ⟨p, hp, rfl⟩
  · rintro ⟨p, hp, rfl⟩
    exact ⟨p, hp, rfl⟩

theorem target?_goto? {s t : Nat} {st : State} (hs : g.automaton.states[s]? = some st)
    {x : Symbol} (ht : g.automaton.target? s x = some t) :
    ∃ st' next, g.automaton.states[t]? = some st' ∧ g.goto? st.items x = some next ∧
      ∀ y, y ∈ st'.items ↔ y ∈ next := by
  obtain ⟨I', next, hI', hgoto, hsame⟩ := explored_spec.1.targets s _ _ (getElem?_states.1 hs).1
    (getElem?_states.1 hs).2 x t ((target?_eq_some_iff hs).1 ht)
  obtain ⟨st', hst', rfl⟩ := exists_state_of_found hI'
  exact ⟨st', next, hst', hgoto, hsame⟩

theorem state_discovered {t : Nat} {st : State} (ht : g.automaton.states[t]? = some st) :
    t = 0 ∨ ∃ i < t, ∃ st₀ x, g.automaton.states[i]? = some st₀ ∧
      g.automaton.target? i x = some t ∧ g.goto? st₀.items x = some st.items := by
  rcases explored_spec.1.discovered t st.items (getElem?_states.1 ht).1 with h0 | h
  · exact .inl h0
  · obtain ⟨i, hit, I₀, ts, x, hI₀, hts, hmem, hgoto⟩ := h
    obtain ⟨st₀, hs₀, rfl⟩ := exists_state_of_found hI₀
    have hts' : ts = st₀.transitions := by
      rw [(getElem?_states.1 hs₀).2] at hts
      exact (Option.some.inj hts).symm
    subst hts'
    exact .inr ⟨i, hit, st₀, x, hs₀, (target?_eq_some_iff hs₀).2 hmem, hgoto⟩

theorem states_key_injective {i j : Nat} {si sj : State} (hi : g.automaton.states[i]? = some si)
    (hj : g.automaton.states[j]? = some sj) (hkey : itemSetKey si.items = itemSetKey sj.items) :
    i = j := by
  have hd := explored_spec (g := g).1.distinct
  have hi' := (getElem?_states.1 hi).1
  have hj' := (getElem?_states.1 hj).1
  have hlt : i < (g.explored.1.map itemSetKey).length := by
    simpa using (List.getElem?_eq_some_iff.1 hi').1
  apply (List.getElem?_inj hlt hd).1
  simp [hi', hj', hkey]

end Grammar

/-- The states reached from state 0 along transitions. -/
inductive Automaton.Reaches (a : Automaton) : Nat → Prop where
  | start : a.Reaches 0
  | step {s t : Nat} (x : Symbol) : a.Reaches s → a.target? s x = some t → a.Reaches t

theorem Automaton.mem_edges {a : Automaton} {e : Edge} :
    e ∈ a.edges ↔ ∃ st, a.states[e.1]? = some st ∧ (e.2.1, e.2.2) ∈ st.transitions := by
  obtain ⟨i, x, t⟩ := e
  simp only [edges, List.mem_flatten, List.mem_map, Prod.exists]
  constructor
  · rintro ⟨_, ⟨st, j, hj, rfl⟩, hmem⟩
    obtain ⟨⟨y, u⟩, hyu, heq⟩ := List.mem_map.1 hmem
    simp only [Prod.mk.injEq] at heq
    obtain ⟨rfl, rfl, rfl⟩ := heq
    exact ⟨st, List.mem_zipIdx_iff_getElem?.1 hj, hyu⟩
  · rintro ⟨st, hst, hmem⟩
    exact ⟨_, ⟨st, i, List.mem_zipIdx_iff_getElem?.2 hst, rfl⟩,
      List.mem_map.2 ⟨(x, t), hmem, rfl⟩⟩

namespace Grammar

variable {g : Grammar}

theorem reaches_of_lt {t : Nat} (ht : t < g.automaton.states.length) : g.automaton.Reaches t := by
  induction t using Nat.strongRecOn with
  | ind t ih =>
    rcases state_discovered (List.getElem?_eq_getElem ht) with rfl | ⟨i, hit, st₀, x, hs₀, hx, -⟩
    · exact .start
    · exact .step x (ih i hit (List.getElem?_eq_some_iff.1 hs₀).1) hx

theorem mem_edges_iff {e : Edge} :
    e ∈ g.automaton.edges ↔ g.automaton.target? e.1 e.2.1 = some e.2.2 := by
  rw [Automaton.mem_edges]
  constructor
  · rintro ⟨st, hst, hmem⟩
    exact (target?_eq_some_iff hst).2 hmem
  · intro h
    obtain ⟨st, hst, -⟩ := Option.bind_eq_some_iff.1 h
    exact ⟨st, hst, (target?_eq_some_iff hst).1 h⟩

variable (g) in
/-- The canonical LR(0) collection: the least family of item lists that holds the closure of
the start item and the goto of each of its members on each symbol. -/
inductive Canonical : List Item → Prop where
  | start : Canonical g.startItems
  | goto {items next : List Item} (x : Symbol) : Canonical items → g.goto? items x = some next →
      Canonical next

theorem canonical_of_state {t : Nat} {st : State} (ht : g.automaton.states[t]? = some st) :
    g.Canonical st.items := by
  induction t using Nat.strongRecOn generalizing st with
  | ind t ih =>
    rcases state_discovered ht with rfl | ⟨i, hit, st₀, x, hs₀, -, hgoto⟩
    · obtain ⟨st', hst', hitems⟩ := state_zero (g := g)
      rw [ht, Option.some.injEq] at hst'
      subst hst'
      exact hitems ▸ .start
    · exact .goto x (ih i hit hs₀) hgoto

theorem exists_state_of_canonical {items : List Item} (hc : g.Canonical items) :
    ∃ st ∈ g.automaton.states, ∀ y, y ∈ st.items ↔ y ∈ items := by
  induction hc with
  | start =>
    obtain ⟨st, hst, hitems⟩ := state_zero (g := g)
    exact ⟨st, List.mem_of_getElem? hst, fun y => by rw [hitems]⟩
  | goto x _ hgoto ih =>
    obtain ⟨st, hst, hsame⟩ := ih
    obtain ⟨s, hs⟩ := List.mem_iff_getElem?.1 hst
    obtain ⟨next', hgoto', hsame'⟩ := goto?_congr (fun y => (hsame y).symm) hgoto
    have hsome : (g.goto? st.items x).isSome := by rw [hgoto']; rfl
    obtain ⟨t, ht⟩ := Option.isSome_iff_exists.1 ((isSome_target?_iff hs).2 (isSome_goto?.1 hsome))
    obtain ⟨st', next'', hst', hgoto'', hsame''⟩ := target?_goto? hs ht
    rw [hgoto', Option.some.injEq] at hgoto''
    subst hgoto''
    exact ⟨st', List.mem_of_getElem? hst', fun y => (hsame'' y).trans (hsame' y).symm⟩

/-- The automaton is the canonical LR(0) collection: state 0 holds the closure of the start
item; distinct states have distinct keys; every item of a state is an item of the grammar; a
state has a transition on exactly the symbols after its dots, each to a state with the items of
the goto; every state is reached from state 0; the edges are the transitions; and the item
sets of the states are those of the least family holding the initial closure and closed under
goto. -/
theorem automaton_canonical (g : Grammar) :
    (∃ st, g.automaton.states[0]? = some st ∧
        st.items = g.closure [Item.initial g.start [g.origin]]) ∧
      (∀ (i j : Nat) (si sj : State), g.automaton.states[i]? = some si →
        g.automaton.states[j]? = some sj → itemSetKey si.items = itemSetKey sj.items → i = j) ∧
      (∀ st ∈ g.automaton.states, ∀ x ∈ st.items, g.ItemOf x) ∧
      (∀ (s : Nat) (st : State) (x : Symbol), g.automaton.states[s]? = some st →
        ((g.automaton.target? s x).isSome ↔ ∃ i ∈ st.items, i.next? = some x)) ∧
      (∀ (s t : Nat) (st : State) (x : Symbol), g.automaton.states[s]? = some st →
        g.automaton.target? s x = some t → ∃ st' next, g.automaton.states[t]? = some st' ∧
          g.goto? st.items x = some next ∧ ∀ y, y ∈ st'.items ↔ y ∈ next) ∧
      (∀ t < g.automaton.states.length, g.automaton.Reaches t) ∧
      (∀ e : Edge, e ∈ g.automaton.edges ↔ g.automaton.target? e.1 e.2.1 = some e.2.2) ∧
      (∀ items : List Item, (∃ st ∈ g.automaton.states, ∀ y, y ∈ st.items ↔ y ∈ items) ↔
        ∃ c, g.Canonical c ∧ ∀ y, y ∈ c ↔ y ∈ items) := by
  refine ⟨state_zero, fun i j si sj => states_key_injective, fun st hst x hx =>
    itemOf_of_mem_states hst hx, fun s st x hs => isSome_target?_iff hs,
    fun s t st x hs ht => target?_goto? hs ht, fun t ht => reaches_of_lt ht,
    fun e => mem_edges_iff, fun items => ⟨?_, ?_⟩⟩
  · rintro ⟨st, hst, hsame⟩
    obtain ⟨s, hs⟩ := List.mem_iff_getElem?.1 hst
    exact ⟨st.items, canonical_of_state hs, hsame⟩
  · rintro ⟨c, hc, hsame⟩
    obtain ⟨st, hst, hsame'⟩ := exists_state_of_canonical hc
    exact ⟨st, hst, fun y => (hsame' y).trans (hsame y)⟩

end Grammar

end SimpleLR
