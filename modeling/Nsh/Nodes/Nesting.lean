import Nsh.Nodes.Walks

/-!
# Nesting

What is inside a piece of syntax is smaller, so every tree has a nesting
(`nested_atMost`).
-/

namespace Nsh.Nodes

open Nsh Nsh.Depth

/-! ### What is inside -/

/-- The left operand of a list is an element of it, or a list whose elements are. -/
theorem left_inside {left right list : Node}
    (h : insideNode list = (left.elements ++ [right]).map .node) :
    Further Inside (.node list) (.node left) ∨ Sees Inside (.node list) (.node left) := by
  have hin : ∀ n, n ∈ left.elements → Inside (.node list) (.node n) := by
    intro n hn
    simp only [Inside, inside, h, List.map_append, List.mem_append, List.mem_map]
    exact .inl ⟨n, hn, rfl⟩
  cases left with
  | and l r | or l r | sequence l r =>
    right
    intro x hx
    simp only [Inside, inside, insideNode, List.mem_map] at hx
    obtain ⟨n, hn, rfl⟩ := hx
    exact hin n hn
  | _ => exact .inl (.of_inside (hin _ (by simp [Node.elements])))

/-! ### Every tree has a nesting -/

theorem sizeOf_lt_of_mem_toList {α : Type} [SizeOf α] {x : α} {o : Option α}
    (h : x ∈ o.toList) : sizeOf x < sizeOf o := by
  rw [Option.mem_toList.1 h]
  simp

theorem sizeOf_elements {node : Node} : ∀ e ∈ node.elements, sizeOf e ≤ sizeOf node := by
  fun_induction Node.elements node with
  | case1 left right ih | case2 left right ih | case3 left right ih =>
    intro e he
    rcases List.mem_append.1 he with he | he
    · have := ih e he
      simp
      omega
    · rw [List.mem_singleton.1 he]
      simp
  | case4 node => simp

theorem sizeOf_redirectionWords {redirections : List Redirection} {word : ParsedWord}
    (h : word ∈ redirectionWords redirections) : sizeOf word < sizeOf redirections := by
  obtain ⟨redirection, hr, hw⟩ := List.mem_flatMap.1 h
  have hlt := List.sizeOf_lt_of_mem hr
  suffices sizeOf word < sizeOf redirection by omega
  cases redirection with
  | descriptor operator descriptor target =>
    cases target <;> simp [Redirection.words] at hw
    subst hw
    simp
    omega
  | file operator descriptor target withStderr | hereDocument descriptor expand target delimiter =>
    simp only [Redirection.words, List.mem_singleton] at hw
    subst hw
    simp only [Redirection.file.sizeOf_spec, Redirection.hereDocument.sizeOf_spec]
    omega
  | hereString descriptor word =>
    simp only [Redirection.words, List.mem_singleton] at hw
    subst hw
    simp

theorem sizeOf_valueWords {value : BashArrayValue} {word : ParsedWord}
    (h : word ∈ value.words) : sizeOf word < sizeOf value := by
  cases value with
  | word w =>
    simp only [BashArrayValue.words, List.mem_singleton] at h
    subst h
    simp
  | compound elements =>
    simp only [BashArrayValue.words, List.mem_flatMap] at h
    obtain ⟨⟨subscript, operator, value⟩, helement, hw⟩ := h
    have hlt := List.sizeOf_lt_of_mem helement
    simp only [BashArrayElement.words, List.mem_append, List.mem_singleton] at hw
    rcases hw with hw | rfl
    · have := sizeOf_lt_of_mem_toList hw
      simp at hlt ⊢
      omega
    · simp at hlt ⊢
      omega

theorem sizeOf_clauses {clauses : List CaseClause} {clause : CaseClause} {node : Node}
    (hclause : clause ∈ clauses) (h : node ∈ clause.patterns ++ clause.body.toList) :
    sizeOf node < sizeOf clauses := by
  have hlt := List.sizeOf_lt_of_mem hclause
  obtain ⟨patterns, body, fallthrough⟩ := clause
  simp only [CaseClause.patterns, CaseClause.body, List.mem_append] at h
  simp at hlt
  rcases h with h | h
  · have := List.sizeOf_lt_of_mem h
    omega
  · have := sizeOf_lt_of_mem_toList h
    omega

theorem insidePart_smaller {part : WordPart} {s : Syntax} (h : s ∈ insidePart part) :
    sizeOf s < 1 + sizeOf part := by
  cases part with
  | text bytes quoted => simp [insidePart] at h
  | parameter name operand quoted =>
    obtain ⟨w, hw, rfl⟩ := List.mem_map.1 h
    have := sizeOf_lt_of_mem_toList hw
    simp
    omega
  | command command quoted =>
    obtain ⟨n, hn, rfl⟩ := List.mem_map.1 h
    have := sizeOf_lt_of_mem_toList hn
    simp
    omega
  | arithmetic expression quoted =>
    rw [List.mem_singleton.1 h]
    simp only [Syntax.word.sizeOf_spec, WordPart.arithmetic.sizeOf_spec]
    omega

theorem insideConditional_smaller {expression : BashConditionalExpr} {s : Syntax}
    (h : s ∈ insideConditional expression) : sizeOf s < 1 + sizeOf expression := by
  cases expression <;> simp [insideConditional] at h
  all_goals rcases h with rfl | rfl
  all_goals simp
  all_goals omega

theorem insideBash_smaller {node : BashNode} {s : Syntax} (h : s ∈ insideBash node) :
    sizeOf s < 1 + sizeOf node := by
  cases node with
  | arrayAssignment name subscript operator value =>
    obtain ⟨w, hw, rfl⟩ := List.mem_map.1 h
    simp only [List.mem_append] at hw
    rcases hw with hw | hw
    · have := sizeOf_lt_of_mem_toList hw
      simp
      omega
    · have := sizeOf_valueWords hw
      simp
      omega
  | processSubstitution direction body =>
    obtain ⟨n, hn, rfl⟩ := List.mem_map.1 h
    have := sizeOf_lt_of_mem_toList hn
    simp
    omega
  | arithmeticCommand expression => simp [insideBash] at h
  | _ =>
    rw [List.mem_singleton.1 h]
    simp

theorem insideNode_smaller {node : Node} {s : Syntax} (h : s ∈ insideNode node) :
    sizeOf s < 1 + sizeOf node := by
  cases node with
  | command assignments arguments redirections =>
    simp only [insideNode, List.mem_append, List.mem_map] at h
    rcases h with ⟨n, hn, rfl⟩ | ⟨w, hw, rfl⟩
    · rcases hn with hn | hn <;>
      · have := List.sizeOf_lt_of_mem hn
        simp
        omega
    · have := sizeOf_redirectionWords hw
      simp
      omega
  | redirect command redirections | background command redirections
  | subshell command redirections | group command redirections =>
    simp only [insideNode, List.mem_cons, List.mem_map] at h
    rcases h with rfl | ⟨w, hw, rfl⟩
    · simp
      omega
    · have := sizeOf_redirectionWords hw
      simp
      omega
  | and left right | or left right | sequence left right =>
    obtain ⟨n, hn, rfl⟩ := List.mem_map.1 h
    rcases List.mem_append.1 hn with hn | hn
    · have := sizeOf_elements n hn
      simp
      omega
    · rw [List.mem_singleton.1 hn]
      simp
  | ifCommand condition thenBranch elseBranch =>
    simp only [insideNode, List.mem_cons, List.mem_map] at h
    rcases h with rfl | rfl | ⟨n, hn, rfl⟩
    · simp
      omega
    · simp
      omega
    · have := sizeOf_lt_of_mem_toList hn
      simp
      omega
  | whileCommand condition body | untilCommand condition body =>
    simp only [insideNode, List.mem_cons, List.not_mem_nil, or_false] at h
    rcases h with rfl | rfl <;> simp
    omega
  | forCommand words body name | select words body name =>
    simp only [insideNode, List.mem_append, List.mem_map, List.mem_singleton] at h
    rcases h with ⟨n, hn, rfl⟩ | rfl
    · have := List.sizeOf_lt_of_mem hn
      simp
      omega
    · simp
      omega
  | timed posixFormat command =>
    obtain ⟨n, hn, rfl⟩ := List.mem_map.1 h
    have := sizeOf_lt_of_mem_toList hn
    simp
    omega
  | pipeline background commands =>
    obtain ⟨n, hn, rfl⟩ := List.mem_map.1 h
    have := List.sizeOf_lt_of_mem hn
    simp
    omega
  | caseCommand word clauses =>
    simp only [insideNode, List.mem_cons, List.mem_flatMap, List.mem_map] at h
    rcases h with rfl | ⟨clause, hclause, n, hn, rfl⟩
    · simp
      omega
    · have := sizeOf_clauses hclause hn
      simp
      omega
  | bash node =>
    have := insideBash_smaller h
    simp
    omega
  | function name body | word word | not command =>
    rw [List.mem_singleton.1 h]
    simp

theorem inside_smaller (s t : Syntax) (h : Inside s t) : sizeOf t < sizeOf s := by
  cases s with
  | node node => simpa using insideNode_smaller h
  | word word =>
    obtain ⟨part, hpart, ht⟩ := List.mem_flatMap.1 h
    have hlt := List.sizeOf_lt_of_mem hpart
    have := insidePart_smaller ht
    simp
    omega
  | conditional expression => simpa using insideConditional_smaller h

/-- The nesting of a tree bounds what is nested in it. -/
theorem nested_atMost (tree : Node) : AtMost Inside (.node tree) (nesting tree) :=
  (atMost_of_measure sizeOf inside_smaller (.node tree)).depth

end Nsh.Nodes
