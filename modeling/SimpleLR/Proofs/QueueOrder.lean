import SimpleLR.Automaton.Queue
import SimpleLR.Proofs.Automaton
/-!
# The queue registers states in discovery order

The queue of `queueAutomaton` may hold item sets with the key of a registered state, or with
the key of a set waiting before them; it tests them only when it takes them out. Read without
those, it holds one set per key: the first copy of each key that is not registered
(`firstCopies`). The worklist of `automaton` numbers an item set when it finds it. The two agree
turn by turn (`Mirrors`): the registered states are the sets found and expanded, in order; the
first copies waiting in the queue are the sets found and not yet expanded, in order and as they
were found; and the pending transitions are the expanded ones with each target named by its key.
A turn that drops a set changes neither; a turn that registers a set is one expansion of the
worklist (`Mirrors.register`). So when the queue is empty the worklist has expanded every set it
found (`drain_mirrors`); started on the closure of the start item, the queue empties within its
turns (`drain_start`). Resolving the keys then gives back the worklist's numbers, the
transitions of each state in the order of its symbols and the edges in the order of the states
(`queueAutomaton_of_drain`, `queueAutomaton_eq_automaton`).
-/

namespace SimpleLR

namespace Grammar

variable {g : Grammar}

/-! ## First copies -/

/-- The item sets of a queue whose key is neither known already nor that of a set before them. -/
def firstCopies : List (List Item) → List (List Item) → List (List Item)
  | _, [] => []
  | known, items :: rest =>
    if isRegistered known items then firstCopies known rest
    else items :: firstCopies (known ++ [items]) rest

theorem isRegistered_iff {known : List (List Item)} {items : List Item} :
    isRegistered known items = true ↔ ∃ I ∈ known, ∀ y, y ∈ I ↔ y ∈ items := by
  simp [isRegistered, sameItemSet_iff]

theorem isRegistered_of_subset {known known' : List (List Item)} (h : ∀ I ∈ known, I ∈ known')
    {items : List Item} (hreg : isRegistered known items = true) :
    isRegistered known' items = true := by
  obtain ⟨I, hI, hsame⟩ := isRegistered_iff.1 hreg
  exact isRegistered_iff.2 ⟨I, h I hI, hsame⟩

theorem firstCopies_append (known xs ys : List (List Item)) :
    firstCopies known (xs ++ ys) =
      firstCopies known xs ++ firstCopies (known ++ firstCopies known xs) ys := by
  induction xs generalizing known with
  | nil => simp [firstCopies]
  | cons I xs ih =>
    simp only [List.cons_append, firstCopies]
    split
    · exact ih known
    · rw [ih, List.cons_append, List.append_assoc, List.singleton_append]

theorem firstCopies_filter (base : List (List Item)) (p : List Item → Bool) :
    ∀ (js known : List (List Item)), (∀ I ∈ base, I ∈ known) →
      (∀ J ∈ js, p J = false → isRegistered base J = true) →
      firstCopies known (js.filter p) = firstCopies known js := by
  intro js
  induction js with
  | nil => simp [firstCopies]
  | cons J js ih =>
    intro known hbase hleft
    have hrest : ∀ J' ∈ js, p J' = false → isRegistered base J' = true :=
      fun J' hJ' => hleft J' (List.mem_cons_of_mem _ hJ')
    by_cases hp : p J = true
    · rw [List.filter_cons_of_pos hp]
      simp only [firstCopies]
      split
      · exact ih known hbase hrest
      · exact congrArg (J :: ·) (ih _ (fun I hI => List.mem_append_left _ (hbase I hI)) hrest)
    · have hknown : isRegistered known J = true :=
        isRegistered_of_subset hbase (hleft J List.mem_cons_self (by simpa using hp))
      rw [List.filter_cons_of_neg hp, firstCopies, if_pos hknown]
      exact ih known hbase hrest

/-! ## What a turn of the worklist and of the queue add -/

/-- The gotos of an item list on the symbols after its dots, in order. -/
def gotos (g : Grammar) (items : List Item) : List (List Item) :=
  (symbolsAfterDot items).filterMap (g.goto? items)

theorem prefix_foldl_expandStep (g : Grammar) (items : List Item) :
    ∀ (xs : List Symbol) (acc : List (Symbol × Nat) × List (List Item)),
      acc.2 <+: (xs.foldl (g.expandStep items) acc).2 := by
  intro xs
  induction xs with
  | nil => exact fun _ => List.prefix_refl _
  | cons x xs ih =>
    intro acc
    rw [List.foldl_cons]
    refine List.IsPrefix.trans ?_ (ih _)
    unfold expandStep
    split
    · exact List.prefix_refl _
    · exact prefix_discover _ _

theorem expand_found (items : List Item) (found : List (List Item)) :
    (g.expand items found).2 = found ++ firstCopies found (g.gotos items) := by
  rw [expand_eq, gotos]
  suffices h : ∀ (xs : List Symbol) (acc : List (Symbol × Nat) × List (List Item)),
      (xs.foldl (g.expandStep items) acc).2 =
        acc.2 ++ firstCopies acc.2 (xs.filterMap (g.goto? items)) from h _ _
  intro xs
  induction xs with
  | nil => simp [firstCopies]
  | cons x xs ih =>
    intro acc
    rw [List.foldl_cons, ih, List.filterMap_cons]
    unfold expandStep
    cases hx : g.goto? items x with
    | none => rfl
    | some next =>
      simp only [firstCopies]
      rcases discover_cases acc.2 next with ⟨hsame, I, hI, hset⟩ | ⟨hnew, -, hfresh⟩
      · have hreg : isRegistered acc.2 next = true :=
          isRegistered_iff.2 ⟨I, List.mem_of_getElem? hI, hset⟩
        rw [hsame, if_pos hreg]
      · have hreg : isRegistered acc.2 next = false := by
          apply Bool.eq_false_iff.2
          intro h
          obtain ⟨I, hI, hset⟩ := isRegistered_iff.1 h
          exact hfresh I hI (itemSetKey_eq_iff.2 hset)
        rw [hnew, if_neg (by simp [hreg]), List.append_assoc, List.singleton_append]

theorem foldl_recordGoto (items : List Item) (s : Nat) :
    ∀ (xs : List Symbol) (b : Frontier), xs.foldl (g.recordGoto items s) b =
      ⟨b.queue ++ (xs.filterMap (g.goto? items)).filter (!isRegistered b.registered ·),
        b.registered,
        b.pending ++ xs.filterMap fun x => (g.goto? items x).map fun J => (s, x, itemSetKey J)⟩ := by
  intro xs
  induction xs with
  | nil => simp
  | cons x xs ih =>
    intro b
    rw [List.foldl_cons, ih]
    unfold recordGoto
    cases hx : g.goto? items x with
    | none => simp [hx]
    | some next =>
      by_cases hreg : isRegistered b.registered next = true
      · simp [hx, hreg]
      · simp [hx, hreg]

/-! ## Pending transitions -/

/-- The transitions of the expanded states as edges, state by state. -/
def edgesOf (done : List (List (Symbol × Nat))) : List Edge :=
  (done.zipIdx.map fun (ts, k) => ts.map fun (x, t) => (k, x, t)).flatten

/-- The pending transitions that the expanded states of the worklist stand for: each target
named by the key of its item set. -/
def pendingOf (found : List (List Item)) (done : List (List (Symbol × Nat))) :
    List (Nat × Symbol × List Item) :=
  (edgesOf done).map fun (k, x, t) => (k, x, itemSetKey (found.getD t []))

theorem mem_edgesOf {done : List (List (Symbol × Nat))} {k : Nat} {x : Symbol} {t : Nat} :
    (k, x, t) ∈ edgesOf done ↔ ∃ ts, done[k]? = some ts ∧ (x, t) ∈ ts := by
  simp only [edgesOf, List.mem_flatten, List.mem_map, Prod.exists]
  constructor
  · rintro ⟨_, ⟨ts, j, hj, rfl⟩, hmem⟩
    obtain ⟨⟨y, u⟩, hyu, heq⟩ := List.mem_map.1 hmem
    simp only [Prod.mk.injEq] at heq
    obtain ⟨rfl, rfl, rfl⟩ := heq
    exact ⟨ts, List.mem_zipIdx_iff_getElem?.1 hj, hyu⟩
  · rintro ⟨ts, hts, hmem⟩
    exact ⟨_, ⟨ts, k, List.mem_zipIdx_iff_getElem?.2 hts, rfl⟩,
      List.mem_map.2 ⟨(x, t), hmem, rfl⟩⟩

theorem edgesOf_append_singleton (done : List (List (Symbol × Nat))) (ts : List (Symbol × Nat)) :
    edgesOf (done ++ [ts]) = edgesOf done ++ ts.map fun (x, t) => (done.length, x, t) := by
  simp [edgesOf, List.zipIdx_append]

theorem pendingOf_congr_found {found found' : List (List Item)} {done : List (List (Symbol × Nat))}
    (hpre : found <+: found') (htargets : ∀ k x t, (k, x, t) ∈ edgesOf done → t < found.length) :
    pendingOf found' done = pendingOf found done := by
  apply List.map_congr_left
  rintro ⟨k, x, t⟩ he
  have ht := htargets k x t he
  simp only [List.getD_eq_getElem?_getD, List.prefix_iff_getElem?.1 hpre t ht,
    List.getElem?_eq_getElem ht]

theorem Explored.targets_lt {found : List (List Item)} {done : List (List (Symbol × Nat))}
    (h : Explored g found done) {k : Nat} {x : Symbol} {t : Nat} (he : (k, x, t) ∈ edgesOf done) :
    t < found.length := by
  obtain ⟨ts, hts, hmem⟩ := mem_edgesOf.1 he
  have hk : k < found.length := Nat.lt_of_lt_of_le (List.getElem?_eq_some_iff.1 hts).1 h.done_le
  obtain ⟨I', -, hI', -⟩ :=
    h.targets k found[k] ts (List.getElem?_eq_getElem hk) hts x t hmem
  exact (List.getElem?_eq_some_iff.1 hI').1

theorem expand_pending (items : List Item) (found : List (List Item)) (s : Nat) :
    (g.expand items found).1.map (fun (x, t) => (s, x, itemSetKey ((g.expand items found).2.getD t []))) =
      (symbolsAfterDot items).filterMap fun x => (g.goto? items x).map fun J => (s, x, itemSetKey J) := by
  rw [expand_eq]
  -- the sets found later extend those found so far, so each target keeps its key
  suffices h : ∀ (xs : List Symbol) (acc : List (Symbol × Nat) × List (List Item)),
      ∃ added, (xs.foldl (g.expandStep items) acc).1 = acc.1 ++ added ∧
        ∀ F, (xs.foldl (g.expandStep items) acc).2 <+: F →
          added.map (fun (x, t) => (s, x, itemSetKey (F.getD t []))) =
            xs.filterMap fun x => (g.goto? items x).map fun J => (s, x, itemSetKey J) by
    obtain ⟨added, heq, hmap⟩ := h (symbolsAfterDot items) ([], found)
    rw [heq, List.nil_append]
    exact hmap _ (List.prefix_refl _)
  intro xs
  induction xs with
  | nil => exact fun acc => ⟨[], by simp, fun _ _ => rfl⟩
  | cons x xs ih =>
    intro acc
    obtain ⟨added, heq, hmap⟩ := ih (g.expandStep items acc x)
    have hpre := prefix_foldl_expandStep g items xs (g.expandStep items acc x)
    rw [List.foldl_cons, heq]
    unfold expandStep at heq hmap hpre ⊢
    cases hx : g.goto? items x with
    | none =>
      simp only [hx] at heq hmap hpre ⊢
      exact ⟨added, rfl, fun F hF => by rw [List.filterMap_cons, hx]; exact hmap F hF⟩
    | some next =>
      simp only [hx] at heq hmap hpre ⊢
      refine ⟨(x, (discover acc.2 next).1) :: added, by simp, fun F hF => ?_⟩
      obtain ⟨I, hI, hset⟩ := discover_getElem? acc.2 next
      have hn := (List.getElem?_eq_some_iff.1 hI).1
      have hFI : F[(discover acc.2 next).1]? = some I := by
        rw [List.prefix_iff_getElem?.1 (hpre.trans hF) _ hn, ← List.getElem?_eq_getElem hn, hI]
      rw [List.map_cons, hmap F hF, List.filterMap_cons, hx]
      simp [List.getD_eq_getElem?_getD, hFI, itemSetKey_eq_iff.2 hset]

/-! ## The queue mirrors the worklist -/

/-- The queue `b` mirrors the worklist with sets found `found` and transitions `done` of the
states expanded: it has registered the expanded states, its first copies are the sets found and
not expanded, and its pending transitions are the expanded ones, targets named by key. -/
structure Mirrors (g : Grammar) (b : Frontier) (found : List (List Item))
    (done : List (List (Symbol × Nat))) : Prop where
  explored : Explored g found done
  registered : b.registered = found.take done.length
  queue : firstCopies b.registered b.queue = found.drop done.length
  pending : b.pending = pendingOf found done

theorem Mirrors.init : Mirrors g ⟨[g.startItems], [], []⟩ [g.startItems] [] where
  explored := Explored.init
  registered := rfl
  queue := by simp [firstCopies, isRegistered]
  pending := rfl

theorem Mirrors.skip {b : Frontier} {found : List (List Item)} {done : List (List (Symbol × Nat))}
    (h : Mirrors g b found done) {items : List Item} {rest : List (List Item)}
    (hq : b.queue = items :: rest) (hreg : isRegistered b.registered items = true) :
    g.visit b = { b with queue := rest } ∧ Mirrors g { b with queue := rest } found done := by
  refine ⟨by simp [visit, hq, hreg], h.explored, h.registered, ?_, h.pending⟩
  have hqueue := h.queue
  rw [hq, firstCopies, if_pos hreg] at hqueue
  exact hqueue

theorem drop_eq_cons_iff {α : Type} {l tail : List α} {n : Nat} {a : α} :
    l.drop n = a :: tail ↔ l[n]? = some a ∧ tail = l.drop (n + 1) := by
  constructor
  · intro h
    have hn : n < l.length := by
      apply Nat.lt_of_not_le
      intro hle
      rw [List.drop_eq_nil_of_le hle] at h
      cases h
    rw [List.drop_eq_getElem_cons hn] at h
    obtain ⟨rfl, rfl⟩ := List.cons.inj h
    exact ⟨List.getElem?_eq_getElem hn, rfl⟩
  · rintro ⟨ha, rfl⟩
    obtain ⟨hn, rfl⟩ := List.getElem?_eq_some_iff.1 ha
    exact List.drop_eq_getElem_cons hn

theorem visit_of_not_registered {b : Frontier} {items : List Item} {rest : List (List Item)}
    (hq : b.queue = items :: rest) (hreg : isRegistered b.registered items = false) :
    g.visit b = ⟨rest ++ (g.gotos items).filter (!isRegistered (b.registered ++ [items]) ·),
      b.registered ++ [items], b.pending ++ (symbolsAfterDot items).filterMap fun x =>
        (g.goto? items x).map fun J => (b.registered.length, x, itemSetKey J)⟩ := by
  simp only [visit, hq, hreg, Bool.false_eq_true, if_false]
  rw [foldl_recordGoto, gotos]

/-- A turn that takes a set whose key is not registered registers the next set the worklist
expands, and does what that expansion does. -/
theorem Mirrors.register {b : Frontier} {found : List (List Item)}
    {done : List (List (Symbol × Nat))} (h : Mirrors g b found done) {items : List Item}
    {rest : List (List Item)} (hq : b.queue = items :: rest)
    (hreg : isRegistered b.registered items = false) :
    found[done.length]? = some items ∧
      Mirrors g (g.visit b) (g.expand items found).2 (done ++ [(g.expand items found).1]) := by
  have hqueue := h.queue
  rw [hq, firstCopies, if_neg (by simp [hreg])] at hqueue
  obtain ⟨hitems, hrest⟩ := drop_eq_cons_iff.1 hqueue.symm
  have hd : done.length < found.length := (List.getElem?_eq_some_iff.1 hitems).1
  have hlen : b.registered.length = done.length := by
    rw [h.registered, List.length_take]
    omega
  have hfound := @expand_found g items found
  have hreg' : b.registered ++ [items] = found.take (done.length + 1) := by
    rw [h.registered, List.take_add_one, hitems, Option.toList_some]
  refine ⟨hitems, (visit_of_not_registered hq hreg) ▸ ⟨h.explored.step hitems, ?_, ?_, ?_⟩⟩
  · rw [hreg', hfound, List.length_append, List.length_singleton,
      List.take_append_of_le_length (by omega)]
  · simp only
    rw [firstCopies_append, hrest, hreg', List.take_append_drop,
      firstCopies_filter (found.take (done.length + 1)) _ _ _
        (fun I hI => List.mem_of_mem_take hI) (fun J _ hJ => by simpa using hJ),
      hfound, List.length_append, List.length_singleton, List.drop_append_of_le_length (by omega)]
  · simp only
    rw [h.pending, pendingOf, pendingOf, edgesOf_append_singleton, List.map_append, hlen,
      ← expand_pending items found done.length]
    congr 1
    · exact (pendingOf_congr_found (expandInv_expand h.explored.distinct).prefix_found
        fun k x t he => h.explored.targets_lt he).symm
    · rw [List.map_map]
      rfl

/-! ## Draining the queue -/

theorem explore_of_length_le {found : List (List Item)} {done : List (List (Symbol × Nat))}
    (h : found.length ≤ done.length) (fuel : Nat) : g.explore fuel found done = (found, done) := by
  cases fuel with
  | zero => rfl
  | succ fuel => rw [explore_succ, List.getElem?_eq_none h]

theorem length_symbolsAfterDot_le {items : List Item} (h : ∀ x ∈ items, g.ItemOf x) :
    (symbolsAfterDot items).length ≤ g.itemUniverse.length := by
  have hsub : symbolsAfterDot items ⊆ g.itemUniverse.filterMap Item.next? := by
    intro b hb
    obtain ⟨i, hi, hnext⟩ := mem_symbolsAfterDot.1 hb
    exact List.mem_filterMap.2 ⟨i, itemOf_iff_mem_itemUniverse.1 (h i hi), hnext⟩
  calc (symbolsAfterDot items).length
      ≤ (g.itemUniverse.filterMap Item.next?).length :=
        ((nodup_eraseDups (items.filterMap Item.next?)).subperm hsub).length_le
    _ ≤ g.itemUniverse.length := List.length_filterMap_le _ _

theorem Explored.length_le {found : List (List Item)} {done : List (List (Symbol × Nat))}
    (h : Explored g found done) : found.length ≤ Nat.pow 2 g.itemUniverse.length :=
  length_le_of_distinct g.itemUniverse h.distinct
    fun I hI x hx => itemOf_iff_mem_itemUniverse.1 (h.itemOf I hI x hx)

variable (g) in
/-- The turns a queue may still take: one per set waiting, and for each state that may still be
registered, one per item set its turn may put back. -/
def turnsLeft (b : Frontier) : Nat :=
  b.queue.length + (Nat.pow 2 g.itemUniverse.length - b.registered.length) * g.itemUniverse.length

theorem turnsLeft_register {b : Frontier} {found : List (List Item)}
    {done : List (List (Symbol × Nat))} (h : Mirrors g b found done) {items : List Item}
    {rest : List (List Item)} (hq : b.queue = items :: rest)
    (hreg : isRegistered b.registered items = false) :
    g.turnsLeft (g.visit b) < g.turnsLeft b := by
  obtain ⟨hitems, -⟩ := h.register hq hreg
  have hd : done.length < found.length := (List.getElem?_eq_some_iff.1 hitems).1
  have hlen : b.registered.length = done.length := by
    rw [h.registered, List.length_take]
    omega
  have hmax := h.explored.length_le
  have hput : ((g.gotos items).filter (!isRegistered (b.registered ++ [items]) ·)).length ≤
      g.itemUniverse.length :=
    calc _ ≤ (g.gotos items).length := List.length_filter_le _ _
      _ ≤ (symbolsAfterDot items).length := List.length_filterMap_le _ _
      _ ≤ g.itemUniverse.length :=
        length_symbolsAfterDot_le (h.explored.itemOf items (List.mem_of_getElem? hitems))
  rw [turnsLeft, turnsLeft, visit_of_not_registered hq hreg, hq]
  simp only [List.length_append, List.length_cons, List.length_nil, Nat.zero_add]
  -- one state fewer to register frees exactly the sets its turn may put back
  have hsplit : (Nat.pow 2 g.itemUniverse.length - b.registered.length) * g.itemUniverse.length =
      (Nat.pow 2 g.itemUniverse.length - (b.registered.length + 1)) * g.itemUniverse.length +
        g.itemUniverse.length := by
    rw [← Nat.succ_mul]
    congr 1
    omega
  omega

/-- With more turns than are left, the queue empties, mirroring the worklist with every set it
found expanded; the worklist, given enough fuel, ends there too. -/
theorem drain_mirrors : ∀ (fuel : Nat) {b : Frontier} {found : List (List Item)}
    {done : List (List (Symbol × Nat))}, Mirrors g b found done → g.turnsLeft b < fuel →
    ∃ b' found' done', g.drain fuel b = some b' ∧ Mirrors g b' found' done' ∧
      done'.length = found'.length ∧ done.length ≤ done'.length ∧
      ∀ K, done'.length ≤ K + done.length → g.explore K found done = (found', done')
  | 0, _, _, _, _, hlt => absurd hlt (Nat.not_lt_zero _)
  | fuel + 1, b, found, done, h, hlt => by
    rw [drain]
    cases hq : b.queue with
    | nil =>
      have hqueue := h.queue
      rw [hq, firstCopies] at hqueue
      have hle : found.length ≤ done.length := List.drop_eq_nil_iff.1 hqueue.symm
      exact ⟨b, found, done, by simp, h, Nat.le_antisymm h.explored.done_le hle, Nat.le_refl _,
        fun K _ => explore_of_length_le hle K⟩
    | cons items rest =>
      simp only [List.isEmpty_cons, Bool.false_eq_true, if_false]
      cases hreg : isRegistered b.registered items with
      | true =>
        obtain ⟨hvisit, h'⟩ := h.skip hq hreg
        rw [hvisit]
        apply drain_mirrors fuel h'
        simp only [turnsLeft, hq, List.length_cons] at hlt ⊢
        omega
      | false =>
        have hturns := turnsLeft_register h hq hreg
        obtain ⟨hitems, h'⟩ := h.register hq hreg
        obtain ⟨b', found', done', hdrain, hm, hlen, hge, hexp⟩ :=
          drain_mirrors fuel h' (by omega)
        simp only [List.length_append, List.length_singleton] at hge hexp
        refine ⟨b', found', done', hdrain, hm, hlen, by omega, fun K hK => ?_⟩
        obtain ⟨K, rfl⟩ : ∃ K', K = K' + 1 := ⟨K - 1, by omega⟩
        rw [explore_succ, hitems]
        exact hexp K (by omega)

/-! ## Resolving the pending transitions -/

theorem mapM_eq_some_map {α β : Type} {f : α → Option β} {h : α → β} :
    ∀ {l : List α}, (∀ a ∈ l, f a = some (h a)) → l.mapM f = some (l.map h)
  | [], _ => rfl
  | a :: l, hl => by
    rw [List.mapM_cons, hl a List.mem_cons_self,
      mapM_eq_some_map fun b hb => hl b (List.mem_cons_of_mem _ hb)]
    rfl

theorem findIdx?_itemSetKey {found : List (List Item)} (hd : Distinct found) {t : Nat}
    (ht : t < found.length) :
    found.findIdx? (itemSetKey · == itemSetKey found[t]) = some t := by
  rw [List.findIdx?_eq_some_iff_getElem]
  refine ⟨ht, by simp, fun j hjt heq => ?_⟩
  have hj : j < (found.map itemSetKey).length := by simpa using Nat.lt_trans hjt ht
  have ht' : t < (found.map itemSetKey).length := by simpa using ht
  have hkeys : (found.map itemSetKey)[j] = (found.map itemSetKey)[t] := by
    simpa using heq
  have := (List.Nodup.getElem_inj_iff hd).1 hkeys
  omega

theorem resolve_pendingOf {found : List (List Item)} {done : List (List (Symbol × Nat))}
    (h : Explored g found done) : resolve found (pendingOf found done) = some (edgesOf done) := by
  have hall : ∀ e ∈ edgesOf done,
      (found.findIdx? (itemSetKey · == itemSetKey (found.getD e.2.2 []))).map
        (fun t => (e.1, e.2.1, t)) = some (id e) := by
    rintro ⟨k, x, t⟩ he
    have ht := h.targets_lt he
    simp [List.getD_eq_getElem?_getD, List.getElem?_eq_getElem ht, findIdx?_itemSetKey h.distinct ht]
  have hmap := @mapM_eq_some_map _ _ _ id _ hall
  rw [List.map_id] at hmap
  rw [resolve, pendingOf, List.mapM_map]
  exact hmap

theorem foldl_assign {ts acc : List (Symbol × Nat)} (hnd : (ts.map (·.1)).Nodup)
    (hnew : ∀ p ∈ ts, ∀ q ∈ acc, p.1 ≠ q.1) :
    ts.foldl (fun acc p => assign acc p.1 p.2) acc = acc ++ ts := by
  induction ts generalizing acc with
  | nil => simp
  | cons p ts ih =>
    obtain ⟨hp, hnd⟩ := List.nodup_cons.1 hnd
    have hfresh : acc.any (·.1 == p.1) = false := by
      rw [List.any_eq_false]
      intro q hq hqp
      have hqp' : q.1 = p.1 := by simpa using hqp
      exact hnew p List.mem_cons_self q hq hqp'.symm
    rw [List.foldl_cons, assign, if_neg (by simp [hfresh]), ih hnd]
    · simp
    · intro p' hp' q hq
      rcases List.mem_append.1 hq with hq | hq
      · exact hnew p' (List.mem_cons_of_mem _ hp') q hq
      · rw [List.mem_singleton.1 hq]
        intro heq
        apply hp
        rw [List.mem_map]
        exact ⟨p', hp', heq⟩

theorem foldl_writeEdge_block (i s : Nat) (ts acc : List (Symbol × Nat)) :
    (ts.map fun (x, t) => ((s, x, t) : Edge)).foldl (writeEdge i) acc =
      if s = i then ts.foldl (fun acc p => assign acc p.1 p.2) acc else acc := by
  induction ts generalizing acc with
  | nil => simp
  | cons p ts ih =>
    obtain ⟨x, t⟩ := p
    rw [List.map_cons, List.foldl_cons, ih]
    by_cases hs : s = i
    · simp [writeEdge, hs]
    · simp [writeEdge, hs]

theorem transitionsOf_edgesOf {done : List (List (Symbol × Nat))}
    (hkeys : ∀ ts ∈ done, (ts.map (·.1)).Nodup) (i : Nat) :
    transitionsOf (edgesOf done) i = done.getD i [] := by
  induction done using List.reverseRecOn with
  | nil => simp [transitionsOf, edgesOf]
  | append_singleton done ts ih =>
    have hts : (ts.map (·.1)).Nodup := hkeys ts (List.mem_append_right _ (List.mem_singleton_self ts))
    rw [transitionsOf, edgesOf_append_singleton, List.foldl_append, ← transitionsOf,
      ih fun ts' h => hkeys ts' (List.mem_append_left _ h), foldl_writeEdge_block]
    by_cases hi : done.length = i
    · subst hi
      have hnone : done.getD done.length [] = [] := by simp [List.getD_eq_getElem?_getD]
      rw [if_pos rfl, hnone, foldl_assign hts (fun _ _ _ hq => absurd hq List.not_mem_nil)]
      simp [List.getD_eq_getElem?_getD]
    · rw [if_neg hi]
      simp only [List.getD_eq_getElem?_getD]
      rcases Nat.lt_or_gt_of_ne hi with hlt | hgt
      · rw [List.getElem?_eq_none (by omega), List.getElem?_eq_none (by simp; omega)]
      · rw [List.getElem?_append_left hgt]

theorem edges_eq_edgesOf (states : List State) :
    (⟨states⟩ : Automaton).edges = edgesOf (states.map (·.transitions)) := by
  simp only [Automaton.edges, edgesOf, List.zipIdx_map, List.map_map]
  rfl

/-! ## The queue builds the automaton -/

theorem drain_start : ∃ b found done, g.explored = (found, done) ∧
    g.drain g.queueFuel ⟨[g.startItems], [], []⟩ = some b ∧ b.registered = found ∧
      b.pending = pendingOf found done := by
  have hstart : g.turnsLeft ⟨[g.startItems], [], []⟩ < g.queueFuel := by
    simp only [turnsLeft, queueFuel, List.length_singleton, List.length_nil, Nat.sub_zero]
    omega
  obtain ⟨b, found, done, hdrain, hm, hlen, -, hexp⟩ := drain_mirrors _ (@Mirrors.init g) hstart
  have hexplored : g.explored = (found, done) :=
    hexp _ (by rw [hlen]; exact Nat.le_succ_of_le hm.explored.length_le)
  refine ⟨b, found, done, hexplored, hdrain, ?_, hm.pending⟩
  rw [hm.registered, hlen, List.take_length]

theorem queueAutomaton_of_drain {b : Frontier} {found : List (List Item)}
    {done : List (List (Symbol × Nat))} (hexplored : g.explored = (found, done))
    (hdrain : g.drain g.queueFuel ⟨[g.startItems], [], []⟩ = some b)
    (hregistered : b.registered = found) (hpending : b.pending = pendingOf found done) :
    g.queueAutomaton = some (g.automaton, g.automaton.edges) := by
  have hspec := explored_spec (g := g)
  rw [hexplored] at hspec
  obtain ⟨hex, hlen⟩ := hspec
  have hkeys : ∀ ts ∈ done, (ts.map (·.1)).Nodup := by
    intro ts hts
    obtain ⟨k, hk⟩ := List.mem_iff_getElem?.1 hts
    have hkf : k < found.length := hlen ▸ (List.getElem?_eq_some_iff.1 hk).1
    rw [hex.keys k found[k] ts (List.getElem?_eq_getElem hkf) hk]
    exact nodup_eraseDups _
  have htable : ∀ i (hi : i < done.length), transitionsOf (edgesOf done) i = done[i] := by
    intro i hi
    rw [transitionsOf_edgesOf hkeys, List.getD_eq_getElem?_getD, List.getElem?_eq_getElem hi,
      Option.getD_some]
  have htransitions : (found.zipWith (fun items ts => (⟨items, ts⟩ : State)) done).map
      (·.transitions) = done := by
    apply List.ext_getElem
    · simp [hlen]
    · intro i h₁ h₂
      simp
  unfold queueAutomaton
  rw [show (⟨[g.closure [Item.initial g.start [g.origin]]], [], []⟩ : Frontier) =
    ⟨[g.startItems], [], []⟩ from rfl, hdrain]
  simp only [Option.bind_eq_bind, Option.bind_some, hregistered, hpending, resolve_pendingOf hex]
  rw [automaton_eq, hexplored, edges_eq_edgesOf, htransitions]
  congr 2
  refine congrArg Automaton.mk (List.ext_getElem ?_ ?_)
  · simp [hlen]
  · intro i h₁ h₂
    have hi : i < done.length := by simpa [hlen] using h₁
    simp [htable i hi]

/-- The queue construction gives the automaton of the worklist: the same states, numbered in the
order the worklist finds them, each with the items of the goto that found it first and with its
transitions in the order of the symbols after its dots, and the edges in the same order. -/
theorem queueAutomaton_eq_automaton (g : Grammar) :
    g.queueAutomaton = some (g.automaton, g.automaton.edges) := by
  obtain ⟨b, found, done, hexplored, hdrain, hregistered, hpending⟩ := g.drain_start
  exact queueAutomaton_of_drain hexplored hdrain hregistered hpending

end Grammar

end SimpleLR
