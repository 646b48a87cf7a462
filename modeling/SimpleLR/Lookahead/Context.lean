import SimpleLR.Lookahead.Sets
/-!
# FIRST and FOLLOW on demand

A lookahead context answers questions about FIRST and FOLLOW one symbol at a time, and keeps
each answer for the questions after it. An answer is found by a depth-first search along the
equations of `SimpleLR.Lookahead.Sets`, which carries the symbols in progress and a memo of the
symbols finished during the question:

* a symbol in progress contributes nothing, which ends the search on left-recursive and
  mutually recursive grammars;
* a finished symbol is not searched again within the question, its set is read from the memo.

A set put in the memo while an ancestor of its symbol was in progress may lack what that
ancestor contributes. So the memo lives for one question only, and the context keeps only the
answers to the questions themselves. FOLLOW asks the context for FIRST, so its search threads
the context through.

Sets are kept as lists without repeats; `unite` adds to a set what it lacks.
-/

namespace SimpleLR

/-- The union of two sets kept as lists: `s`, then the members of `t` that `s` lacks. -/
def unite (s t : List Symbol) : List Symbol := s ++ t.filter (· ∉ s)

@[simp] theorem mem_unite {s t : List Symbol} {a : Symbol} : a ∈ unite s t ↔ a ∈ s ∨ a ∈ t := by
  unfold unite
  by_cases h : a ∈ s <;> simp [h]

/-- Sets found during one question, each with its symbol, the latest first. -/
abbrev Memo := List (Symbol × List Symbol)

/-- How many symbols of `domain` are not in progress. A search puts a symbol in progress before
it searches further, so this bounds how deep a search can go. -/
def openCount (domain inProgress : List Symbol) : Nat := (domain.filter (· ∉ inProgress)).length

theorem openCount_cons (domain inProgress : List Symbol) (x : Symbol) :
    openCount domain (x :: inProgress) =
      ((domain.filter (· ∉ inProgress)).filter (· ≠ x)).length := by
  unfold openCount
  rw [List.filter_filter]
  congr 1
  apply List.filter_congr
  intro y _
  simp

theorem openCount_cons_lt {domain inProgress : List Symbol} {x : Symbol} (hx : x ∈ domain)
    (hnew : x ∉ inProgress) : openCount domain (x :: inProgress) < openCount domain inProgress := by
  rw [openCount_cons]
  have hle := List.length_filter_le (· ≠ x) (domain.filter (· ∉ inProgress))
  -- `x` itself is counted before and not after
  have hne : ((domain.filter (· ∉ inProgress)).filter (· ≠ x)).length ≠
      (domain.filter (· ∉ inProgress)).length := by
    rw [Ne, List.length_filter_eq_length_iff]
    intro h
    simpa using h x (by simp [hx, hnew])
  unfold openCount
  omega

theorem openCount_cons_of_not_mem {domain inProgress : List Symbol} {x : Symbol}
    (hx : x ∉ domain) : openCount domain (x :: inProgress) = openCount domain inProgress := by
  rw [openCount_cons, List.filter_eq_self.2]
  · rfl
  · intro y hy
    have hne : y ≠ x := fun h => hx (h ▸ (List.mem_filter.1 hy).1)
    simpa using hne

namespace Grammar

theorem mem_defined_of_defines {g : Grammar} {x : Symbol} (h : g.defines x = true) :
    x ∈ g.defined := by
  obtain ⟨r, hr, rfl⟩ := (defines_iff g x).1 h
  simpa [defined] using ⟨r, hr, rfl⟩

mutual

/-- FIRST of `x` by depth-first search, given the symbols in progress and the memo of the
question, with the memo after it. A symbol in progress gives nothing, a finished one its set
in the memo, and a symbol that the text does not define gives itself. A defined symbol gives
the union over its alternatives, searched with the symbol in progress, and the union is put in
the memo. -/
def firstSearch (g : Grammar) (x : Symbol) (inProgress : List Symbol) (memo : Memo) :
    List Symbol × Memo :=
  if x ∈ inProgress then ([], memo)
  else
    match memo.lookup x with
    | some s => (s, memo)
    | none =>
      if g.defines x then
        let r := g.firstSearchAlts (g.alternatives x) (x :: inProgress) memo []
        (r.1, (x, r.1) :: r.2)
      else ([x], memo)
termination_by (openCount g.defined inProgress, 0, 0)
decreasing_by
  apply Prod.Lex.left
  exact openCount_cons_lt (mem_defined_of_defines ‹_›) ‹_›

/-- Adds to `out` what the alternatives give FIRST: `ε` for the empty alternative `[ε]`, and
for another the FIRST of its first symbol. No alternative of a grammar read from text is the
empty list; such an alternative gives nothing. -/
def firstSearchAlts (g : Grammar) : List (List Symbol) → List Symbol → Memo → List Symbol →
    List Symbol × Memo
  | [], _, memo, out => (out, memo)
  | rhs :: rest, inProgress, memo, out =>
    if rhs = [epsilon] then g.firstSearchAlts rest inProgress memo (unite out [epsilon])
    else
      match rhs.head? with
      | none => g.firstSearchAlts rest inProgress memo out
      | some y =>
        let r := g.firstSearch y inProgress memo
        g.firstSearchAlts rest inProgress r.2 (unite out r.1)
termination_by alts inProgress => (openCount g.defined inProgress, 1, alts.length)

end

section FirstSearch

variable {g : Grammar} {x : Symbol} {inProgress : List Symbol} {memo : Memo}

theorem firstSearch_of_mem (h : x ∈ inProgress) : g.firstSearch x inProgress memo = ([], memo) := by
  rw [firstSearch, if_pos h]

theorem firstSearch_of_lookup {s : List Symbol} (h : x ∉ inProgress)
    (hs : memo.lookup x = some s) : g.firstSearch x inProgress memo = (s, memo) := by
  rw [firstSearch, if_neg h, hs]

theorem firstSearch_of_defines (h : x ∉ inProgress) (hs : memo.lookup x = none)
    (hd : g.defines x = true) : g.firstSearch x inProgress memo =
      ((g.firstSearchAlts (g.alternatives x) (x :: inProgress) memo []).1,
        (x, (g.firstSearchAlts (g.alternatives x) (x :: inProgress) memo []).1) ::
          (g.firstSearchAlts (g.alternatives x) (x :: inProgress) memo []).2) := by
  rw [firstSearch, if_neg h, hs]
  simp only [hd, if_true]

theorem firstSearch_of_not_defines (h : x ∉ inProgress) (hs : memo.lookup x = none)
    (hd : g.defines x = false) : g.firstSearch x inProgress memo = ([x], memo) := by
  rw [firstSearch, if_neg h, hs]
  simp [hd]

theorem firstSearchAlts_nil (out : List Symbol) :
    g.firstSearchAlts [] inProgress memo out = (out, memo) := by
  rw [firstSearchAlts]

theorem firstSearchAlts_epsilon (rest : List (List Symbol)) (out : List Symbol) :
    g.firstSearchAlts ([epsilon] :: rest) inProgress memo out =
      g.firstSearchAlts rest inProgress memo (unite out [epsilon]) := by
  rw [firstSearchAlts, if_pos rfl]

theorem firstSearchAlts_head {rhs : List Symbol} {y : Symbol} (hne : rhs ≠ [epsilon])
    (hy : rhs.head? = some y) (rest : List (List Symbol)) (out : List Symbol) :
    g.firstSearchAlts (rhs :: rest) inProgress memo out =
      g.firstSearchAlts rest inProgress (g.firstSearch y inProgress memo).2
        (unite out (g.firstSearch y inProgress memo).1) := by
  rw [firstSearchAlts, if_neg hne, hy]

theorem firstSearchAlts_head_none {rhs : List Symbol} (hne : rhs ≠ [epsilon])
    (hy : rhs.head? = none) (rest : List (List Symbol)) (out : List Symbol) :
    g.firstSearchAlts (rhs :: rest) inProgress memo out =
      g.firstSearchAlts rest inProgress memo out := by
  rw [firstSearchAlts, if_neg hne, hy]

end FirstSearch

/-- The left-hand sides of all rules, the augmented start rule's included. -/
def leftSides (g : Grammar) : List Symbol := g.rules.map (·.lhs)

theorem mem_leftSides_of_mem_occurrences {g : Grammar} {b l : Symbol} {y : Option Symbol}
    (h : (l, y) ∈ g.occurrences b) : l ∈ g.leftSides := by
  simp only [occurrences, List.mem_flatMap, List.mem_map, List.mem_filter, Prod.mk.injEq] at h
  obtain ⟨r, hr, _, _, rfl, -⟩ := h
  exact List.mem_map_of_mem hr

end Grammar

/-- The answers that a lookahead context keeps: FIRST and FOLLOW of the symbols it was asked
about, the latest first. -/
structure LookaheadContext where
  first : Memo
  follow : Memo
deriving DecidableEq, Repr

/-- A context that was asked nothing. -/
def LookaheadContext.fresh : LookaheadContext := ⟨[], []⟩

/-- A question to a lookahead context. -/
inductive LookaheadQuery where
  | first (x : Symbol)
  | follow (a : Symbol)
deriving DecidableEq, Repr

namespace Grammar

/-- FIRST of `x` asked of a context: the answer kept, or else a new search, whose answer the
context keeps. -/
def firstQuery (g : Grammar) (c : LookaheadContext) (x : Symbol) :
    List Symbol × LookaheadContext :=
  match c.first.lookup x with
  | some s => (s, c)
  | none =>
    let s := (g.firstSearch x [] []).1
    (s, { c with first := (x, s) :: c.first })

mutual

/-- FOLLOW of `a` by depth-first search, given the symbols in progress, the memo of the question
and the context that FIRST is asked of, with the memo and the context after it. A symbol in
progress gives nothing and a finished one its set in the memo. Otherwise the end marker follows
the augmented start, and every place of `a` in a rule adds what follows it there, searched with
`a` in progress; the union is put in the memo. -/
def followSearch (g : Grammar) (a : Symbol) (inProgress : List Symbol) (memo : Memo)
    (c : LookaheadContext) : List Symbol × Memo × LookaheadContext :=
  if a ∈ inProgress then ([], memo, c)
  else
    match memo.lookup a with
    | some s => (s, memo, c)
    | none =>
      let r := g.followSearchAt a (g.occurrences a)
        (fun _ h => mem_leftSides_of_mem_occurrences h) (a :: inProgress) memo c
        (if a = g.start then [endMarker] else [])
      (r.1, (a, r.1) :: r.2.1, r.2.2)
termination_by (openCount g.leftSides inProgress, if a ∈ g.leftSides then 0 else 2, 0)
decreasing_by
  by_cases ha : a ∈ g.leftSides
  · exact Prod.Lex.left _ _ (openCount_cons_lt ha ‹_›)
  · rw [openCount_cons_of_not_mem ha, if_neg ha]
    exact Prod.Lex.right _ (Prod.Lex.left _ _ (by decide))

/-- Adds to `out` what follows `a` at the places `places`, each a rule's left-hand side and the
symbol after `a`, if any. After the last symbol of a rule, `a` is followed by what follows the
left-hand side; before a symbol `y`, by FIRST of `y` without `ε`, and when that FIRST holds `ε`
by what follows the left-hand side as well. A rule whose left-hand side is `a` itself adds
nothing through its left-hand side. -/
def followSearchAt (g : Grammar) (a : Symbol) : (places : List (Symbol × Option Symbol)) →
    (∀ p ∈ places, p.1 ∈ g.leftSides) → List Symbol → Memo → LookaheadContext → List Symbol →
    List Symbol × Memo × LookaheadContext
  | [], _, _, memo, c, out => (out, memo, c)
  | (lhs, next) :: rest, h, inProgress, memo, c, out =>
    have hrest : ∀ p ∈ rest, p.1 ∈ g.leftSides := fun p hp => h p (List.mem_cons_of_mem _ hp)
    match next with
    | none =>
      if lhs = a then g.followSearchAt a rest hrest inProgress memo c out
      else
        let r := g.followSearch lhs inProgress memo c
        g.followSearchAt a rest hrest inProgress r.2.1 r.2.2 (unite out r.1)
    | some y =>
      let f := g.firstQuery c y
      let out := unite out (f.1.filter (· ≠ epsilon))
      if epsilon ∈ f.1 ∧ lhs ≠ a then
        let r := g.followSearch lhs inProgress memo f.2
        g.followSearchAt a rest hrest inProgress r.2.1 r.2.2 (unite out r.1)
      else g.followSearchAt a rest hrest inProgress memo f.2 out
termination_by places _ inProgress => (openCount g.leftSides inProgress, 1, places.length)
decreasing_by
  · exact Prod.Lex.right _ (Prod.Lex.right _ (by simp))
  · rw [if_pos (h _ List.mem_cons_self)]
    exact Prod.Lex.right _ (Prod.Lex.left _ _ (by decide))
  · exact Prod.Lex.right _ (Prod.Lex.right _ (by simp))
  · rw [if_pos (h _ List.mem_cons_self)]
    exact Prod.Lex.right _ (Prod.Lex.left _ _ (by decide))
  · exact Prod.Lex.right _ (Prod.Lex.right _ (by simp))
  · exact Prod.Lex.right _ (Prod.Lex.right _ (by simp))

end

section FollowSearch

variable {g : Grammar} {a : Symbol} {inProgress : List Symbol} {memo : Memo}
  {c : LookaheadContext}

theorem followSearch_of_mem (h : a ∈ inProgress) :
    g.followSearch a inProgress memo c = ([], memo, c) := by
  rw [followSearch, if_pos h]

theorem followSearch_of_lookup {s : List Symbol} (h : a ∉ inProgress)
    (hs : memo.lookup a = some s) : g.followSearch a inProgress memo c = (s, memo, c) := by
  rw [followSearch, if_neg h, hs]

theorem followSearch_of_fresh (h : a ∉ inProgress) (hs : memo.lookup a = none) :
    g.followSearch a inProgress memo c =
      let r := g.followSearchAt a (g.occurrences a)
        (fun _ h => mem_leftSides_of_mem_occurrences h) (a :: inProgress) memo c
        (if a = g.start then [endMarker] else [])
      (r.1, (a, r.1) :: r.2.1, r.2.2) := by
  rw [followSearch, if_neg h, hs]

variable {rest : List (Symbol × Option Symbol)} {out : List Symbol}

theorem followSearchAt_nil (h : ∀ p ∈ ([] : List (Symbol × Option Symbol)), p.1 ∈ g.leftSides) :
    g.followSearchAt a [] h inProgress memo c out = (out, memo, c) := by
  rw [followSearchAt]

theorem followSearchAt_last_self (h : ∀ p ∈ (a, none) :: rest, p.1 ∈ g.leftSides) :
    g.followSearchAt a ((a, none) :: rest) h inProgress memo c out =
      g.followSearchAt a rest (fun p hp => h p (List.mem_cons_of_mem _ hp)) inProgress memo c
        out := by
  rw [followSearchAt, if_pos rfl]

theorem followSearchAt_last {lhs : Symbol} (hne : lhs ≠ a)
    (h : ∀ p ∈ (lhs, none) :: rest, p.1 ∈ g.leftSides) :
    g.followSearchAt a ((lhs, none) :: rest) h inProgress memo c out =
      g.followSearchAt a rest (fun p hp => h p (List.mem_cons_of_mem _ hp)) inProgress
        (g.followSearch lhs inProgress memo c).2.1 (g.followSearch lhs inProgress memo c).2.2
        (unite out (g.followSearch lhs inProgress memo c).1) := by
  rw [followSearchAt, if_neg hne]

theorem followSearchAt_through {lhs y : Symbol}
    (hthrough : epsilon ∈ (g.firstQuery c y).1 ∧ lhs ≠ a)
    (h : ∀ p ∈ (lhs, some y) :: rest, p.1 ∈ g.leftSides) :
    g.followSearchAt a ((lhs, some y) :: rest) h inProgress memo c out =
      let f := g.firstQuery c y
      let r := g.followSearch lhs inProgress memo f.2
      g.followSearchAt a rest (fun p hp => h p (List.mem_cons_of_mem _ hp)) inProgress r.2.1
        r.2.2 (unite (unite out (f.1.filter (· ≠ epsilon))) r.1) := by
  rw [followSearchAt]
  simp only [if_pos hthrough]

theorem followSearchAt_next {lhs y : Symbol}
    (hthrough : ¬(epsilon ∈ (g.firstQuery c y).1 ∧ lhs ≠ a))
    (h : ∀ p ∈ (lhs, some y) :: rest, p.1 ∈ g.leftSides) :
    g.followSearchAt a ((lhs, some y) :: rest) h inProgress memo c out =
      g.followSearchAt a rest (fun p hp => h p (List.mem_cons_of_mem _ hp)) inProgress memo
        (g.firstQuery c y).2 (unite out ((g.firstQuery c y).1.filter (· ≠ epsilon))) := by
  rw [followSearchAt]
  simp only [if_neg hthrough]

end FollowSearch

/-- FOLLOW of `a` asked of a context: the answer kept, or else a new search, whose answer the
context keeps beside the FIRST answers that the search asked for. -/
def followQuery (g : Grammar) (c : LookaheadContext) (a : Symbol) :
    List Symbol × LookaheadContext :=
  match c.follow.lookup a with
  | some s => (s, c)
  | none =>
    let r := g.followSearch a [] [] c
    (r.1, { r.2.2 with follow := (a, r.1) :: r.2.2.follow })

/-- The answer to a question, and the context after it. -/
def ask (g : Grammar) (c : LookaheadContext) : LookaheadQuery → List Symbol × LookaheadContext
  | .first x => g.firstQuery c x
  | .follow a => g.followQuery c a

/-- The answers to questions asked in turn of one context, and the context after them. -/
def askAll (g : Grammar) (c : LookaheadContext) :
    List LookaheadQuery → List (List Symbol) × LookaheadContext
  | [] => ([], c)
  | q :: qs =>
    let r := g.ask c q
    let rs := g.askAll r.2 qs
    (r.1 :: rs.1, rs.2)

end Grammar

end SimpleLR
