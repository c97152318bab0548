import Nsh.Lib.Stretch
import Nsh.Regexes.Spans

/-!
# What the compiler builds

Every function of the parser keeps the same account of what it read: the groups are
numbered on from those read before, in the order their parentheses open, no literal is
empty, the bounds of an interval are in order and in range, and the depth is the one it
was called at.
-/

namespace Nsh.Regexes

/-- The number of a group. -/
def groupIndex : Expr → Option Nat
  | .group index _ => some index
  | _ => none

/-- The numbers of the groups, in the order their parentheses open. -/
def groupIndices (inner : List Expr) : List Nat := inner.filterMap groupIndex

mutual

/-- How many groups stand inside one another. -/
def Expr.groupDepth : Expr → Nat
  | .sequence parts => groupDepthAll parts
  | .alternation branches => groupDepthAll branches
  | .repeated body _ _ => body.groupDepth
  | .group _ body => body.groupDepth + 1
  | .empty => 0
  | .literal _ => 0
  | .anyCharacter => 0
  | .bracket _ => 0
  | .start => 0
  | .finish => 0

def groupDepthAll : List Expr → Nat
  | [] => 0
  | e :: es => max e.groupDepth (groupDepthAll es)

end

/-- Bounds an interval may have. -/
def Bounds (min : Nat) (max : Option Nat) : Prop :=
  min ≤ maxRepeat ∧ ∀ m, max = some m → min ≤ m ∧ m ≤ maxRepeat

/-- What was read between two places of the parser. -/
structure Reads (p : Parser) (inner : List Expr) (deep : Nat) (q : Parser) : Prop where
  depth : q.depth = p.depth
  nested : p.depth ≤ maxGroupDepth → p.depth + deep ≤ maxGroupDepth
  groups : p.groups ≤ q.groups
  numbered : groupIndices inner = List.range' (p.groups + 1) (q.groups - p.groups)
  literals : ∀ bytes, .literal bytes ∈ inner → bytes ≠ []
  intervals : ∀ body min max, .repeated body min max ∈ inner → Bounds min max

namespace Reads

variable {p q r : Parser} {inner more : List Expr} {deep deeper : Nat}

theorem nothing (hdepth : q.depth = p.depth) (hgroups : q.groups = p.groups) : Reads p [] 0 q where
  depth := hdepth
  nested h := h
  groups := le_of_eq hgroups.symm
  numbered := by rw [hgroups, Nat.sub_self]; rfl
  literals _ h := by cases h
  intervals _ _ _ h := by cases h

theorem trans (h : Reads p inner deep q) (h' : Reads q more deeper r) :
    Reads p (inner ++ more) (max deep deeper) r where
  depth := h'.depth.trans h.depth
  nested hle := by
    have hfirst := h.nested hle
    have hsecond := h'.nested (h.depth ▸ hle)
    rw [h.depth] at hsecond
    omega
  groups := le_trans h.groups h'.groups
  numbered := by
    have hle := h.groups
    have hle' := h'.groups
    have hfirst : inner.filterMap groupIndex = _ := h.numbered
    have hsecond : more.filterMap groupIndex = _ := h'.numbered
    rw [groupIndices, List.filterMap_append, hfirst, hsecond]
    have hnext : q.groups + 1 = p.groups + 1 + (q.groups - p.groups) := by omega
    rw [hnext, List.range'_append_1]
    congr 1
    omega
  literals bytes hmem := by
    rcases List.mem_append.mp hmem with hmem | hmem
    · exact h.literals bytes hmem
    · exact h'.literals bytes hmem
  intervals body min max hmem := by
    rcases List.mem_append.mp hmem with hmem | hmem
    · exact h.intervals body min max hmem
    · exact h'.intervals body min max hmem

/-- One expression more in front, which is neither a group nor empty. -/
theorem cons {e : Expr} (h : Reads p inner deep q) (hindex : groupIndex e = none)
    (hliteral : ∀ bytes, e = .literal bytes → bytes ≠ [])
    (hinterval : ∀ body min max, e = .repeated body min max → Bounds min max) :
    Reads p (e :: inner) deep q where
  depth := h.depth
  nested := h.nested
  groups := h.groups
  numbered := by
    rw [groupIndices, List.filterMap_cons_none hindex]
    exact h.numbered
  literals bytes hmem := by
    rcases List.mem_cons.mp hmem with hmem | hmem
    · exact hliteral bytes hmem.symm
    · exact h.literals bytes hmem
  intervals body min max hmem := by
    rcases List.mem_cons.mp hmem with hmem | hmem
    · exact hinterval body min max hmem.symm
    · exact h.intervals body min max hmem

end Reads

/-! ### Characters and bounds -/

theorem leadWidth_pos (lead : UInt8) : 0 < leadWidth lead := by
  unfold leadWidth
  split
  · exact Nat.one_pos
  · split
    · exact Nat.two_pos
    · split
      · exact Nat.zero_lt_succ _
      · split
        · exact Nat.zero_lt_succ _
        · exact Nat.one_pos

theorem utf8Width_pos (bytes : Bytes) (offset : Nat) : 0 < utf8Width bytes offset := by
  unfold utf8Width
  split
  · exact Nat.one_pos
  · next lead _ =>
    simp only
    split
    · exact leadWidth_pos lead
    · exact Nat.one_pos

theorem literalEnd_bounds {bytes : Bytes} {offset : Nat} (h : offset < bytes.length) :
    offset < literalEnd bytes offset ∧ literalEnd bytes offset ≤ bytes.length := by
  have := utf8Width_pos bytes offset
  unfold literalEnd
  omega

namespace Parser

variable {p q : Parser}

theorem interval_bounds {min : Nat} {max : Option Nat} (h : p.interval = .ok ((min, max), q)) :
    Bounds min max ∧ q.depth = p.depth ∧ q.groups = p.groups := by
  unfold interval at h
  split at h
  · cases h
  · next least after _ =>
    simp only at h
    generalize (if p.active after (chr ',') then p.digits (after + 1) else (some least, after)) =
      read at h
    obtain ⟨most, close⟩ := read
    simp only at h
    split at h
    · cases h
    · split at h
      · cases h
      · next hbig =>
        split at h
        · cases h
        · next horder =>
          cases h
          simp only [Bool.or_eq_true, decide_eq_true_eq, Option.any_eq_true, not_or, not_exists,
            not_and, Nat.not_lt] at hbig horder
          exact ⟨⟨hbig.1, fun m hm => ⟨horder m hm, hbig.2 m hm⟩⟩, rfl, rfl⟩

theorem quantifier_bounds {bounds : Option (Nat × Option Nat)}
    (h : p.quantifier = .ok (bounds, q)) :
    (∀ min max, bounds = some (min, max) → Bounds min max) ∧ q.depth = p.depth ∧
      q.groups = p.groups := by
  have hnumber : ∀ {least : Nat} {most : Option Nat}, Bounds least most →
      ∀ min max, some (least, most) = some (min, max) → Bounds min max := by
    intro least most hbounds min max heq
    cases heq
    exact hbounds
  unfold quantifier at h
  split at h
  · cases h
    exact ⟨hnumber ⟨by decide, fun m hm => (by cases hm)⟩, rfl, rfl⟩
  · split at h
    · cases h
      exact ⟨hnumber ⟨by decide, fun m hm => (by cases hm)⟩, rfl, rfl⟩
    · split at h
      · cases h
        refine ⟨hnumber ⟨by decide, ?_⟩, rfl, rfl⟩
        intro m hm
        obtain rfl := Option.some.inj hm
        exact ⟨Nat.zero_le 1, by decide⟩
      · split at h
        · split at h
          · cases h
          · next read next heq =>
            cases h
            obtain ⟨hbounds, hsame⟩ := interval_bounds heq
            exact ⟨hnumber hbounds, hsame⟩
        · cases h
          exact ⟨fun min max heq => (by cases heq), rfl, rfl⟩

theorem quantified_reads {fuel : Nat} {atom e : Expr} {start p q : Parser}
    (hatom : Reads start atom.within atom.groupDepth p) (h : quantified fuel atom p = .ok (e, q)) :
    Reads start e.within e.groupDepth q := by
  induction fuel generalizing atom p with
  | zero =>
    cases h
    exact hatom
  | succ fuel ih =>
    rw [quantified] at h
    split at h
    · cases h
    · next heq =>
      cases h
      obtain ⟨-, hdepth, hgroups⟩ := quantifier_bounds heq
      have hsame := hatom.trans (Reads.nothing hdepth hgroups)
      rwa [List.append_nil, Nat.max_zero] at hsame
    · next least most p' heq =>
      obtain ⟨hbounds, hdepth, hgroups⟩ := quantifier_bounds heq
      split at h
      · cases h
      · apply ih _ h
        have hsame := hatom.trans (Reads.nothing hdepth hgroups)
        rw [List.append_nil, Nat.max_zero] at hsame
        apply hsame.cons rfl (fun bytes heq => by cases heq)
        intro body min max heq
        cases heq
        exact hbounds least most rfl

/-! ### Groups -/

/-- Every expression the function reads is accounted for. -/
def Accounts (inside : Parser → Read Expr) : Prop :=
  ∀ p e q, inside p = .ok (e, q) → Reads p e.within e.groupDepth q

theorem groupWith_reads {inside : Parser → Read Expr} (hinside : Accounts inside) {e : Expr}
    (h : groupWith inside p = .ok (e, q)) : Reads p e.within e.groupDepth q := by
  unfold groupWith at h
  split at h
  · cases h
  · next hroom =>
    simp only at h
    split at h
    · cases h
    · next body p' heq =>
      split at h
      · cases h
      · cases h
        have hread := hinside _ body p' heq
        have hgroups : p.groups + 1 ≤ p'.groups := hread.groups
        have hdepth : p'.depth = p.depth + 1 := hread.depth
        exact {
          depth := by
            show p'.depth - 1 = p.depth
            omega
          nested := by
            intro _
            have hnested := hread.nested (show p.depth + 1 ≤ maxGroupDepth by omega)
            have hnested : p.depth + 1 + body.groupDepth ≤ maxGroupDepth := hnested
            show p.depth + (body.groupDepth + 1) ≤ maxGroupDepth
            omega
          groups := by
            show p.groups ≤ p'.groups
            omega
          numbered := by
            have hnumbered : groupIndices body.within =
                List.range' (p.groups + 1 + 1) (p'.groups - (p.groups + 1)) := hread.numbered
            show (p.groups + 1) :: groupIndices body.within =
              List.range' (p.groups + 1) (p'.groups - p.groups)
            rw [hnumbered, ← List.range'_succ]
            congr 1
            omega
          literals := by
            intro bytes hmem
            rcases List.mem_cons.mp hmem with hmem | hmem
            · cases hmem
            · exact hread.literals bytes hmem
          intervals := by
            intro inner min max hmem
            rcases List.mem_cons.mp hmem with hmem | hmem
            · cases hmem
            · exact hread.intervals inner min max hmem }

/-- An expression with nothing inside it. -/
theorem leaf_reads {e : Expr} (hwithin : e.within = [e]) (hnest : e.groupDepth = 0)
    (hindex : groupIndex e = none) (hliteral : ∀ bytes, e = .literal bytes → bytes ≠ [])
    (hinterval : ∀ body min max, e ≠ .repeated body min max) (hdepth : q.depth = p.depth)
    (hgroups : q.groups = p.groups) : Reads p e.within e.groupDepth q := by
  rw [hwithin, hnest]
  exact (Reads.nothing hdepth hgroups).cons hindex hliteral
    fun body min max heq => absurd heq (hinterval body min max)

theorem atomWith_reads {inside : Parser → Read Expr} (hinside : Accounts inside) {e : Expr}
    (hpos : p.pos < p.bytes.length) (h : atomWith inside p = .ok (e, q)) :
    Reads p e.within e.groupDepth q := by
  unfold atomWith at h
  split at h
  · exact groupWith_reads hinside h
  · split at h
    · unfold bracket at h
      simp only at h
      split at h
      · cases h
      · next members next heq =>
        cases h
        exact leaf_reads (by rw [Expr.within]) rfl rfl (by simp) (by simp) rfl rfl
    · split at h
      · cases h
        exact leaf_reads (by rw [Expr.within]) rfl rfl (by simp) (by simp) rfl rfl
      · split at h
        · cases h
          exact leaf_reads (by rw [Expr.within]) rfl rfl (by simp) (by simp) rfl rfl
        · split at h
          · cases h
            exact leaf_reads (by rw [Expr.within]) rfl rfl (by simp) (by simp) rfl rfl
          · split at h
            · cases h
            · split at h
              · cases h
              · cases h
                refine leaf_reads (by rw [Expr.within]) rfl rfl ?_ (by simp) rfl rfl
                intro bytes heq
                obtain ⟨hlt, hle⟩ := literalEnd_bounds hpos
                obtain rfl := Expr.literal.inj heq
                exact extract_ne_nil p.bytes hle hlt

theorem piecesWith_reads {inside : Parser → Read Expr} (hinside : Accounts inside) {fuel : Nat}
    {pieces : List Expr} (h : piecesWith inside fuel p = .ok (pieces, q)) :
    Reads p (withinAll pieces) (groupDepthAll pieces) q := by
  induction fuel generalizing p pieces with
  | zero =>
    cases h
    exact Reads.nothing rfl rfl
  | succ fuel ih =>
    rw [piecesWith] at h
    split at h
    · cases h
      exact Reads.nothing rfl rfl
    · next hstop =>
      rw [Bool.or_eq_true, Bool.or_eq_true, decide_eq_true_eq, not_or, not_or, Nat.not_le] at hstop
      split at h
      · cases h
      · next piece p' hpiece =>
        split at h
        · cases h
        · next rest p'' hrest =>
          cases h
          unfold pieceWith at hpiece
          split at hpiece
          · cases hpiece
          · next atom p₀ hatom =>
            have hread := quantified_reads (atomWith_reads hinside hstop.1.1 hatom) hpiece
            exact hread.trans (ih hrest)

theorem sequenceWith_reads {inside : Parser → Read Expr} (hinside : Accounts inside) :
    Accounts (sequenceWith inside) := by
  intro p e q h
  unfold sequenceWith at h
  split at h
  · cases h
  · next pieces q hpieces =>
    cases h
    have hread := piecesWith_reads hinside hpieces
    have hmany : Reads p (withinAll pieces) (groupDepthAll pieces) q →
        Reads p (Expr.sequence pieces).within (Expr.sequence pieces).groupDepth q := by
      intro hread
      exact hread.cons rfl (fun bytes heq => by cases heq) (fun body min max heq => by cases heq)
    rcases pieces with _ | ⟨piece, _ | ⟨second, pieces⟩⟩
    · exact hread.cons rfl (fun bytes heq => by cases heq) (fun body min max heq => by cases heq)
    · have hread : Reads p (piece.within ++ []) (max piece.groupDepth 0) q := hread
      rwa [List.append_nil, Nat.max_zero] at hread
    · exact hmany hread

theorem branchesWith_reads {inside : Parser → Read Expr} (hinside : Accounts inside) {fuel : Nat}
    {branches : List Expr} (h : branchesWith inside fuel p = .ok (branches, q)) :
    Reads p (withinAll branches) (groupDepthAll branches) q := by
  induction fuel generalizing p branches with
  | zero =>
    cases h
    exact Reads.nothing rfl rfl
  | succ fuel ih =>
    rw [branchesWith] at h
    split at h
    · cases h
    · next branch p' hbranch =>
      have hread := sequenceWith_reads hinside p branch p' hbranch
      split at h
      · split at h
        · cases h
        · next rest p'' hrest =>
          cases h
          have hskip : Reads p' [] 0 (p'.advance 1) := Reads.nothing rfl rfl
          have hall := hread.trans (hskip.trans (ih hrest))
          rwa [List.nil_append, Nat.zero_max] at hall
      · cases h
        show Reads p (branch.within ++ []) (max branch.groupDepth 0) _
        rwa [List.append_nil, Nat.max_zero]

theorem alternationWith_reads {inside : Parser → Read Expr} (hinside : Accounts inside) :
    Accounts (alternationWith inside) := by
  intro p e q h
  unfold alternationWith at h
  split at h
  · cases h
  · next branches q hbranches =>
    cases h
    have hread := branchesWith_reads hinside hbranches
    have hmany : Reads p (withinAll branches) (groupDepthAll branches) q →
        Reads p (Expr.alternation branches).within (Expr.alternation branches).groupDepth q := by
      intro hread
      exact hread.cons rfl (fun bytes heq => by cases heq) (fun body min max heq => by cases heq)
    rcases branches with _ | ⟨branch, _ | ⟨second, branches⟩⟩
    · exact hmany hread
    · have hread : Reads p (branch.within ++ []) (max branch.groupDepth 0) q := hread
      rwa [List.append_nil, Nat.max_zero] at hread
    · exact hmany hread

theorem alternation_reads (room : Nat) : Accounts (alternation room) := by
  induction room with
  | zero =>
    apply alternationWith_reads
    intro p e q h
    cases h
  | succ room ih => exact alternationWith_reads ih

end Parser

/-! ### Compiled expressions -/

variable {bytes : Bytes} {quoted : List Bool} {ignoreCase : Bool} {regex : Regex}

theorem compile_reads (h : compile bytes quoted ignoreCase = .ok regex) :
    ∃ p, Reads ⟨bytes, quoted, 0, 0, 0⟩ regex.root.within regex.root.groupDepth p ∧
      regex.groupCount = p.groups ∧ regex.ignoreCase = ignoreCase := by
  unfold compile at h
  split at h
  · cases h
  · next root p hroot =>
    split at h
    · cases h
    · cases h
      exact ⟨p, Parser.alternation_reads maxGroupDepth _ root p hroot, rfl, rfl⟩

theorem compile_solid (h : compile bytes quoted ignoreCase = .ok regex) : regex.root.Solid := by
  obtain ⟨p, hreads, -⟩ := compile_reads h
  exact ⟨hreads.literals, fun body min max hmem m hm =>
    ((hreads.intervals body min max hmem).2 m hm).1⟩

/-- **A compiled operand is in order**: its groups are numbered from one in the order
    their parentheses open and are as many as are counted, at most `maxGroupDepth` of them
    stand inside one another, no literal is empty, and every interval is in order and in
    range. -/
theorem compile_inOrder (h : compile bytes quoted ignoreCase = .ok regex) :
    groupIndices regex.root.within = List.range' 1 regex.groupCount ∧
      regex.root.groupDepth ≤ maxGroupDepth ∧
      (∀ literal, .literal literal ∈ regex.root.within → literal ≠ []) ∧
      ∀ body min max, .repeated body min max ∈ regex.root.within → Bounds min max := by
  obtain ⟨p, hreads, hgroups, -⟩ := compile_reads h
  have hnested := hreads.nested (Nat.zero_le _)
  have hnumbered := hreads.numbered
  rw [hgroups]
  exact ⟨hnumbered, by rwa [Nat.zero_add] at hnested, hreads.literals, hreads.intervals⟩

theorem compile_inOrder_letters :
    ∃ regex, compile (text "(a(b))*(c)") (List.replicate 10 false) false = .ok regex ∧
      groupIndices regex.root.within = List.range' 1 regex.groupCount :=
  ⟨_, rfl, (compile_inOrder
    (show compile (text "(a(b))*(c)") (List.replicate 10 false) false = .ok _ from rfl)).1⟩

end Nsh.Regexes
