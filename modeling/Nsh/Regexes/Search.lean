import Nsh.Regexes.Compiled
import Nsh.Regexes.Complete

/-!
# Leftmost and longest

An attempt keeps the furthest end its continuation was called with, and a search makes
attempts at one character boundary after another until one finds something.  What it
reports is a match whatever the bounds cut off; when they cut off nothing, it is the
first match there is and the longest one there.
-/

namespace Nsh.Regexes

open Nsh.Patterns (Subject)

variable {s : Subject} {root : Expr} {start i j : Nat} {st : State}

/-- The captures of a match: the whole span, and for each group a span of its body that
    lies inside. -/
structure Match (root : Expr) (s : Subject) (captures : Captures) (start stop : Nat) : Prop where
  whole : captures[0]? = some (some (start, stop))
  spans : root.Spans s start stop
  groups : ∀ index span, index ≠ 0 → captures.getD index none = some span →
    start ≤ span.1 ∧ span.1 ≤ span.2 ∧ span.2 ≤ stop ∧
      ∃ body, .group index body ∈ root.within ∧ body.Spans s span.1 span.2

/-! ### One attempt -/

theorem keepLongest_quiet (start : Nat) : Continue.Quiet (keepLongest start) := by
  intro depth st j
  refine ⟨rfl, ?_⟩
  show State.groups (if _ then _ else _) = _
  split
  · rfl
  · rfl

/-- What an attempt has kept so far is a match. -/
def Kept (root : Expr) (s : Subject) (start : Nat) (st : State) : Prop :=
  0 < st.groups.length ∧
    ∀ captures, st.longest = some captures → Match root s captures start st.bestEnd

theorem kept_lasting (root : Expr) (s : Subject) (start : Nat) : Lasting (Kept root s start) where
  charge _ _ h := h
  turnAway _ h := h
  setGroup st index span h := by
    refine ⟨?_, h.2⟩
    show 0 < (st.groups.set index span).length
    rw [List.length_set]
    exact h.1
  refuse _ h := h

/-- The spans a group of the expression may hold. -/
def Allowed (root : Expr) (s : Subject) (index : Nat) (span : Span) : Prop :=
  ∃ body, .group index body ∈ root.within ∧ body.Spans s span.1 span.2

theorem keepLongest_fits (root : Expr) (s : Subject) (start : Nat) :
    Continue.Fits (keepLongest start) (Kept root s start) (Allowed root s) start
      (root.Spans s start) := by
  intro depth st j hj hinside h
  show Kept root s start (if _ then _ else _)
  split
  · refine ⟨h.1, ?_⟩
    intro captures hcaptures
    obtain rfl := Option.some.inj hcaptures
    refine ⟨?_, hj, ?_⟩
    · rw [List.getElem?_set_self h.1]
    · intro index span hindex hspan
      rw [List.getD_eq_getElem?_getD, List.getElem?_set_ne (Ne.symm hindex),
        ← List.getD_eq_getElem?_getD] at hspan
      exact hinside index span hspan
  · exact h

/-- Something has been found that ends at `j` or beyond, or a bound has turned an
    expression away. -/
def Reached (j : Nat) (st : State) : Prop :=
  st.refused = true ∨ st.longest.isSome = true ∧ j ≤ st.bestEnd

theorem reached_lasting (j : Nat) : Lasting (Reached j) where
  charge _ _ h := h
  turnAway _ _ := Or.inl rfl
  setGroup _ _ _ h := h
  refuse _ _ := Or.inl rfl

theorem keepLongest_keeps (start j : Nat) : Continue.Keeps (keepLongest start) (Reached j) := by
  intro depth st end' h
  show Reached j (if _ then _ else _)
  split
  · next hbetter =>
    rcases h with hrefused | ⟨hsome, hle⟩
    · exact Or.inl hrefused
    · refine Or.inr ⟨rfl, ?_⟩
      rw [Bool.or_eq_true, Option.isNone_iff_eq_none, decide_eq_true_eq] at hbetter
      rcases hbetter with hnone | hlt
      · rw [hnone] at hsome
        cases hsome
      · exact le_trans hle (Nat.le_of_lt hlt)
  · exact h

theorem keepLongest_makes (start j : Nat) : Continue.Makes (keepLongest start) (Reached j) j := by
  intro depth st
  show Reached j (if _ then _ else _)
  split
  · exact Or.inr ⟨rfl, le_refl j⟩
  · next hworse =>
    rw [Bool.or_eq_true, Option.isNone_iff_eq_none, decide_eq_true_eq, not_or, Nat.not_lt] at hworse
    exact Or.inr ⟨Option.isSome_iff_ne_none.mpr hworse.1, hworse.2⟩

/-- A refusal is not forgotten. -/
def Refused (st : State) : Prop := st.refused = true

theorem refused_lasting : Lasting Refused where
  charge _ _ h := h
  turnAway _ _ := rfl
  setGroup _ _ _ h := h
  refuse _ _ := rfl

theorem keepLongest_refused (start : Nat) : Continue.Keeps (keepLongest start) Refused := by
  intro depth st end' h
  show Refused (if _ then _ else _)
  split
  · exact h
  · exact h

namespace Regex

variable {regex : Regex} {steps : Nat} {refused : Bool} {captures : Captures}

/-- What an attempt finds is a match, whatever the bounds cut off. -/
theorem matchAt_sound (hsolid : regex.root.Solid)
    (h : (regex.matchAt s start steps refused).longest = some captures) :
    Match regex.root s captures start (regex.matchAt s start steps refused).bestEnd := by
  have hkept : Kept regex.root s start (regex.matchAt s start steps refused) := by
    apply matchesExpr_sound (kept_lasting regex.root s start) s (Allowed regex.root s) start
      maxDepth
      regex.root start _ hsolid
    · intro index body hmem i j hspan
      exact ⟨body, hmem, hspan⟩
    · exact le_refl start
    · exact keepLongest_quiet start
    · exact keepLongest_fits regex.root s start
    · intro index span hspan
      change (List.replicate (regex.groupCount + 1) none).getD index none = some span at hspan
      rw [List.getD_eq_getElem?_getD, List.getElem?_replicate] at hspan
      split at hspan
      · cases hspan
      · cases hspan
    · exact ⟨Nat.succ_pos _, fun captures h => by cases h⟩
  exact hkept.2 captures h

/-- An attempt finds the furthest end there is, unless a bound cut it off. -/
theorem matchAt_complete (hsolid : regex.root.Solid)
    (hfree : (regex.matchAt s start steps refused).refused = false)
    (h : regex.root.Spans s start j) :
    (regex.matchAt s start steps refused).longest.isSome = true ∧
      j ≤ (regex.matchAt s start steps refused).bestEnd := by
  have hreached : Reached j (regex.matchAt s start steps refused) :=
    matchesExpr_complete (reached_lasting j) (fun st => Or.inl rfl) s maxDepth regex.root start _ j
      hsolid (keepLongest_quiet start) (keepLongest_keeps start j) (keepLongest_makes start j) h 0 _
  rcases hreached with hrefused | hfound
  · rw [hfree] at hrefused
    cases hrefused
  · exact hfound

theorem matchAt_refused (hfree : (regex.matchAt s start steps refused).refused = false) :
    refused = false := by
  cases refused with
  | false => rfl
  | true =>
    have h : Refused (regex.matchAt s start steps true) :=
      matchesExpr_keeps refused_lasting s maxDepth regex.root start _
        (keepLongest_refused start) 0 _
        rfl
    rw [Refused, hfree] at h
    cases h

/-- As many groups as the expression has and the whole match, in what was kept as well. -/
def Sized (count : Nat) (st : State) : Prop :=
  st.groups.length = count + 1 ∧
    ∀ captures, st.longest = some captures → captures.length = count + 1

theorem sized_lasting (count : Nat) : Lasting (Sized count) where
  charge _ _ h := h
  turnAway _ h := h
  setGroup st index span h := by
    refine ⟨?_, h.2⟩
    show (st.groups.set index span).length = count + 1
    rw [List.length_set]
    exact h.1
  refuse _ h := h

theorem keepLongest_sized (start count : Nat) :
    Continue.Keeps (keepLongest start) (Sized count) := by
  intro depth st end' h
  show Sized count (if _ then _ else _)
  split
  · refine ⟨h.1, ?_⟩
    intro captures hcaptures
    obtain rfl := Option.some.inj hcaptures
    rw [List.length_set]
    exact h.1
  · exact h

theorem matchAt_sized : Sized regex.groupCount (regex.matchAt s start steps refused) :=
  matchesExpr_keeps (sized_lasting regex.groupCount) s maxDepth regex.root start _
    (keepLongest_sized start regex.groupCount) 0 _
    ⟨List.length_replicate, fun captures h => by cases h⟩

/-! ### The whole search -/

/-- The starts a search tries from one on. -/
def starts (s : Subject) (fuel start : Nat) : List Nat :=
  start :: s.characters.boundariesFrom fuel start

theorem starts_least (fuel : Nat) (h : i ∈ starts s fuel start) : start ≤ i := by
  rcases List.mem_cons.mp h with rfl | h
  · exact le_refl i
  · exact Nat.le_of_lt (s.characters.lt_of_mem_boundariesFrom fuel start i h).1

theorem starts_end (fuel : Nat) (h : s.bytes.length ≤ start) : starts s fuel start = [start] := by
  rw [starts]
  cases fuel with
  | zero => rfl
  | succ fuel =>
    rw [Characters.boundariesFrom, if_pos (show s.characters.bytes.length ≤ start from h)]

theorem starts_succ (fuel : Nat) (h : ¬s.bytes.length ≤ start) :
    starts s (fuel + 1) start = start :: starts s fuel (s.endAt start) := by
  have h : ¬s.characters.bytes.length ≤ start := h
  have hend : s.endAt start = start + s.characters.width start := if_neg h
  rw [starts, starts, Characters.boundariesFrom, if_neg h, hend]

/-- What a search that begins at one start comes to. -/
structure Outcome (regex : Regex) (s : Subject) (tried : List Nat) (st : State) : Prop where
  sound : ∀ captures, st.longest = some captures →
    ∃ i ∈ tried, Match regex.root s captures i st.bestEnd ∧
      (st.refused = false → (∀ k ∈ tried, ∀ j, regex.root.Spans s k j → i ≤ k) ∧
        ∀ j, regex.root.Spans s i j → j ≤ st.bestEnd)
  complete : st.longest = none → st.refused = false →
    ∀ k ∈ tried, ∀ j, ¬regex.root.Spans s k j

/-- The attempt that ends a search. -/
theorem matchAt_outcome (hsolid : regex.root.Solid) (fuel : Nat)
    (hlast : (regex.matchAt s start steps refused).longest.isSome = true ∨
      s.bytes.length ≤ start) :
    Outcome regex s (starts s fuel start) (regex.matchAt s start steps refused) where
  sound captures hcaptures := by
    refine ⟨start, List.mem_cons_self, matchAt_sound hsolid hcaptures, ?_⟩
    intro hfree
    exact ⟨fun k hk j _ => starts_least fuel hk, fun j hj => (matchAt_complete hsolid hfree hj).2⟩
  complete hnone hfree k hk j hj := by
    rw [hnone] at hlast
    rcases hlast with hsome | hend
    · cases hsome
    · rw [starts_end fuel hend, List.mem_singleton] at hk
      subst hk
      have hfound := (matchAt_complete hsolid hfree hj).1
      rw [hnone] at hfound
      cases hfound

/-- An attempt that finds nothing leaves the search to the starts behind it. -/
theorem Outcome.cons {tried : List Nat} (hsolid : regex.root.Solid)
    (hnone : (regex.matchAt s start steps refused).longest = none)
    (hrefused : st.refused = false → (regex.matchAt s start steps refused).refused = false)
    (h : Outcome regex s tried st) : Outcome regex s (start :: tried) st := by
  have hnothing : st.refused = false → ∀ j, ¬regex.root.Spans s start j := by
    intro hfree j hj
    have hfound := (matchAt_complete hsolid (hrefused hfree) hj).1
    rw [hnone] at hfound
    cases hfound
  refine ⟨?_, ?_⟩
  · intro captures hcaptures
    obtain ⟨i, hi, hmatch, hleast⟩ := h.sound captures hcaptures
    refine ⟨i, List.mem_cons_of_mem start hi, hmatch, ?_⟩
    intro hfree
    refine ⟨?_, (hleast hfree).2⟩
    intro k hk j hj
    rcases List.mem_cons.mp hk with rfl | hk
    · exact absurd hj (hnothing hfree j)
    · exact (hleast hfree).1 k hk j hj
  · intro hlongest hfree k hk
    rcases List.mem_cons.mp hk with rfl | hk
    · exact hnothing hfree
    · exact h.complete hlongest hfree k hk

theorem searchFrom_outcome (hsolid : regex.root.Solid) (fuel : Nat)
    (hfuel : s.bytes.length - start ≤ fuel) :
    Outcome regex s (starts s fuel start) (regex.searchFrom s fuel start steps refused) ∧
      ((regex.searchFrom s fuel start steps refused).refused = false → refused = false) := by
  induction fuel generalizing start steps refused with
  | zero => exact ⟨matchAt_outcome hsolid 0 (Or.inr (by omega)), matchAt_refused⟩
  | succ fuel ih =>
    rw [searchFrom]
    by_cases hstop : (regex.matchAt s start steps refused).longest.isSome = true ∨
        s.bytes.length ≤ start
    · rw [if_pos (by rwa [Bool.or_eq_true, decide_eq_true_eq])]
      exact ⟨matchAt_outcome hsolid (fuel + 1) hstop, matchAt_refused⟩
    · rw [if_neg (by rwa [Bool.or_eq_true, decide_eq_true_eq])]
      rw [not_or, Bool.not_eq_true, Option.isSome_eq_false_iff, Option.isNone_iff_eq_none] at hstop
      obtain ⟨hnone, hlt⟩ := hstop
      have hadvance : start < s.endAt start := s.characters.lt_endAt (Nat.not_le.mp hlt)
      have hrest : s.bytes.length - s.endAt start ≤ fuel := by omega
      obtain ⟨houtcome, hrefused⟩ := @ih (s.endAt start)
        (regex.matchAt s start steps refused).steps (regex.matchAt s start steps refused).refused
        hrest
      rw [starts_succ fuel hlt]
      exact ⟨houtcome.cons hsolid hnone hrefused, fun hfree => matchAt_refused (hrefused hfree)⟩

theorem run_outcome (hsolid : regex.root.Solid) (locale : Locale) (bytes : Bytes) :
    Outcome regex (regex.subject locale bytes) (regex.subject locale bytes).characters.boundaries
      (regex.run locale bytes) :=
  (searchFrom_outcome hsolid bytes.length (Nat.sub_le _ _)).1

/-- A search reports the whole match and every group. -/
theorem searchFrom_sized (fuel : Nat) :
    Sized regex.groupCount (regex.searchFrom s fuel start steps refused) := by
  induction fuel generalizing start steps refused with
  | zero => exact matchAt_sized
  | succ fuel ih =>
    rw [searchFrom]
    split
    · exact matchAt_sized
    · exact ih

/-- **What a search reports is a match**, also where a bound has cut it short. -/
theorem search_sound {operand : Bytes} {quoted : List Bool} {ignoreCase : Bool}
    (hcompile : compile operand quoted ignoreCase = .ok regex) (locale : Locale) (bytes : Bytes)
    (h : regex.search locale bytes = some captures) :
    ∃ i ∈ (regex.subject locale bytes).characters.boundaries, ∃ j,
      Match regex.root (regex.subject locale bytes) captures i j := by
  obtain ⟨i, hi, hmatch, -⟩ := (run_outcome (compile_solid hcompile) locale bytes).sound captures h
  exact ⟨i, hi, _, hmatch⟩

/-- `x|(){1000}` on `x`: the first branch has reported its match when the depth bound turns
the second one away. -/
theorem search_sound_cut :
    ∃ regex, compile (text "x|()\x7b1000\x7d") (List.replicate 10 false) false = .ok regex ∧
      ¬regex.Unbounded Locale.c (text "x") ∧
      ∃ i ∈ (regex.subject Locale.c (text "x")).characters.boundaries, ∃ j,
        Match regex.root (regex.subject Locale.c (text "x")) [some (0, 1), none] i j :=
  ⟨_, rfl, by decide +kernel, search_sound
    (show compile (text "x|()\x7b1000\x7d") (List.replicate 10 false) false = .ok _ from rfl)
    Locale.c (text "x") (by decide +kernel)⟩

/-- **A search is leftmost-longest.** -/
theorem search_leftmostLongest {operand : Bytes} {quoted : List Bool} {ignoreCase : Bool}
    (hcompile : compile operand quoted ignoreCase = .ok regex) (locale : Locale) (bytes : Bytes)
    (hfree : regex.Unbounded locale bytes) :
    ((regex.search locale bytes).isSome = true ↔
      ∃ i ∈ (regex.subject locale bytes).characters.boundaries, ∃ j,
        regex.root.Spans (regex.subject locale bytes) i j) ∧
    ∀ captures, regex.search locale bytes = some captures →
      ∃ i ∈ (regex.subject locale bytes).characters.boundaries, ∃ j,
        Match regex.root (regex.subject locale bytes) captures i j ∧
        (∀ k ∈ (regex.subject locale bytes).characters.boundaries, ∀ l,
          regex.root.Spans (regex.subject locale bytes) k l → i ≤ k) ∧
        ∀ l, regex.root.Spans (regex.subject locale bytes) i l → l ≤ j := by
  have houtcome := run_outcome (compile_solid hcompile) locale bytes
  constructor
  · constructor
    · intro hsome
      obtain ⟨captures, hcaptures⟩ := Option.isSome_iff_exists.mp hsome
      obtain ⟨i, hi, hmatch, -⟩ := houtcome.sound captures hcaptures
      exact ⟨i, hi, _, hmatch.spans⟩
    · rintro ⟨i, hi, j, hj⟩
      rw [Option.isSome_iff_ne_none]
      intro hnone
      exact houtcome.complete hnone hfree i hi j hj
  · intro captures hcaptures
    obtain ⟨i, hi, hmatch, hleast⟩ := houtcome.sound captures hcaptures
    exact ⟨i, hi, _, hmatch, hleast hfree⟩

theorem search_leftmostLongest_letters :
    ∃ regex, compile (text "(a|ab)(c|bcd)*") (List.replicate 14 false) false = .ok regex ∧
      ((regex.search Locale.c (text "xabcd")).isSome = true ↔
        ∃ i ∈ (regex.subject Locale.c (text "xabcd")).characters.boundaries, ∃ j,
          regex.root.Spans (regex.subject Locale.c (text "xabcd")) i j) :=
  ⟨_, rfl, (search_leftmostLongest
    (show compile (text "(a|ab)(c|bcd)*") (List.replicate 14 false) false = .ok _ from rfl)
    Locale.c (text "xabcd") (by decide +kernel)).1⟩

end Regex

end Nsh.Regexes
