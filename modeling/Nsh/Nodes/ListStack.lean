import Nsh.Nodes.Descent

/-!
# What a list costs in stack

The evaluator collects the spine of a list and runs it in one frame.  The walks it
starts on the side do not: the description of a forked child in the job table, the
copy and the prehashing of a function's body.  Nor do interactive evaluation, the
printers and the projection.
-/

namespace Nsh.Nodes

open Nsh Nsh.Depth Activation

/-! ### Lists taken element by element -/

/-- The joins of the list an activation goes down, one call to an element. -/
def Activation.taken : Activation → ℕ
  | evaluateInteractiveSequence node | flatten node => node.sequenceSpine
  | prehashTree node | clone (.node node) | renderNode node | functionDefinition node
  | printList node | printCommand node | hereDocuments node | scriptCommand node => node.spine
  | _ => 0

theorem steps_le_taken (a : Activation) : a.steps ≤ a.taken + 3 := by
  cases a with
  | clone syntax' => cases syntax' <;> simp [steps, taken]
  | evaluateList node => cases node <;> simp [steps]
  | _ => simp [steps, taken]

/-- A function that calls itself on the left operand of any list. -/
theorem nest_spine (hashAll : Bool) (f : Node → Activation)
    (hand : ∀ l r, Calls hashAll (f (.and l r)) (f l))
    (hor : ∀ l r, Calls hashAll (f (.or l r)) (f l))
    (hsequence : ∀ l r, Calls hashAll (f (.sequence l r)) (f l)) (node : Node) :
    ∃ a, Nest (Calls hashAll) node.spine (f node) a := by
  fun_induction Node.spine node with
  | case1 left right ih =>
    obtain ⟨a, ha⟩ := ih
    exact ⟨a, .call (hand left right) ha⟩
  | case2 left right ih =>
    obtain ⟨a, ha⟩ := ih
    exact ⟨a, .call (hor left right) ha⟩
  | case3 left right ih =>
    obtain ⟨a, ha⟩ := ih
    exact ⟨a, .call (hsequence left right) ha⟩
  | case4 node => exact ⟨f node, .here _⟩

/-- A function that calls itself on the left operand of a `;` list. -/
theorem nest_sequenceSpine (hashAll : Bool) (f : Node → Activation)
    (hsequence : ∀ l r, Calls hashAll (f (.sequence l r)) (f l)) (node : Node) :
    ∃ a, Nest (Calls hashAll) node.sequenceSpine (f node) a := by
  fun_induction Node.sequenceSpine node with
  | case1 left right ih =>
    obtain ⟨a, ha⟩ := ih
    exact ⟨a, .call (hsequence left right) ha⟩
  | case2 node _ => exact ⟨f node, .here _⟩

/-- The `;` of a list, then the joins of its first command, are its spine. -/
theorem exists_item_spine (node : Node) :
    ∃ item ∈ node.items, node.spine = node.sequenceSpine + item.spine := by
  fun_induction Node.items node with
  | case1 left right ihl ihr =>
    obtain ⟨item, hitem, hspine⟩ := ihl
    refine ⟨item, List.mem_append_left _ hitem, ?_⟩
    simp only [Node.spine, Node.sequenceSpine, hspine]
    omega
  | case2 node h =>
    refine ⟨node, List.mem_singleton_self _, ?_⟩
    cases node with
    | sequence left right => exact absurd rfl (h left right)
    | _ => simp [Node.sequenceSpine]

theorem nest_hereDocuments (hashAll : Bool) (node : Node) :
    ∃ a, Nest (Calls hashAll) node.spine (hereDocuments node) a :=
  nest_spine hashAll hereDocuments (by simp [Calls, calls, children])
    (by simp [Calls, calls, children])
    (by simp [Calls, calls, children]) node

theorem nest_printList (hashAll : Bool) (node : Node) :
    ∃ n a, Nest (Calls hashAll) n (printList node) a ∧ node.spine ≤ 2 * n := by
  obtain ⟨item, hitem, hspine⟩ := exists_item_spine node
  by_cases hle : node.sequenceSpine ≤ item.spine
  · obtain ⟨a, ha⟩ := nest_hereDocuments hashAll item
    have hlist : Calls hashAll (printList node) (printCommand item) := by
      simp [Calls, calls, hitem]
    have hcommand : Calls hashAll (printCommand item) (hereDocuments item) := by
      simp [Calls, calls]
    exact ⟨item.spine + 1 + 1, a, .call hlist (.call hcommand ha), by omega⟩
  · obtain ⟨a, ha⟩ := nest_sequenceSpine hashAll flatten
      (by simp [Calls, calls, callsFlatten]) node
    have hlist : Calls hashAll (printList node) (flatten node) := by
      simp [Calls, calls]
    exact ⟨node.sequenceSpine + 1, a, .call hlist ha, by omega⟩

/-- What an activation takes element by element shows in the depth. -/
theorem taken_nests (hashAll : Bool) (a : Activation) :
    ∃ n b, Nest (Calls hashAll) n a b ∧ a.taken ≤ 2 * n := by
  have of_spine : ∀ n b, Nest (Calls hashAll) n a b → a.taken ≤ n →
      ∃ n b, Nest (Calls hashAll) n a b ∧ a.taken ≤ 2 * n := by
    intro n b hn hle
    exact ⟨n, b, hn, by omega⟩
  cases a with
  | evaluateInteractiveSequence node =>
    obtain ⟨b, hb⟩ := nest_sequenceSpine hashAll evaluateInteractiveSequence
      (by simp [Calls, calls, callsInteractive]) node
    exact of_spine _ b hb (le_refl _)
  | prehashTree node =>
    obtain ⟨b, hb⟩ := nest_spine hashAll prehashTree
      (by simp [Calls, calls, callsPrehash]) (by simp [Calls, calls, callsPrehash])
      (by simp [Calls, calls, callsPrehash]) node
    exact of_spine _ b hb (le_refl _)
  | clone syntax' =>
    cases syntax' with
    | node node =>
      obtain ⟨b, hb⟩ := nest_spine hashAll (fun n => clone (.node n))
        (by simp [Calls, calls, callsClone]) (by simp [Calls, calls, callsClone])
        (by simp [Calls, calls, callsClone]) node
      exact of_spine _ b hb (le_refl _)
    | _ => exact of_spine 0 _ (.here _) (le_refl _)
  | renderNode node =>
    obtain ⟨b, hb⟩ := nest_spine hashAll renderNode
      (by simp [Calls, calls, callsRender]) (by simp [Calls, calls, callsRender])
      (by simp [Calls, calls, callsRender]) node
    exact of_spine _ b hb (le_refl _)
  | functionDefinition body =>
    by_cases hgroup : ∃ command, body = .group command []
    · obtain ⟨command, rfl⟩ := hgroup
      exact of_spine 0 _ (.here _) (le_refl _)
    · obtain ⟨n, b, hb, hle⟩ := nest_printList hashAll body
      have hcall : Calls hashAll (functionDefinition body) (printList body) := by
        simp only [Calls, calls]
        unfold callsDefinition
        split
        · exact absurd ⟨_, rfl⟩ hgroup
        · exact List.mem_singleton_self _
      refine ⟨n + 1, b, .call hcall hb, ?_⟩
      simp only [taken]
      omega
  | printList node => exact nest_printList hashAll node
  | flatten node =>
    obtain ⟨b, hb⟩ := nest_sequenceSpine hashAll flatten
      (by simp [Calls, calls, callsFlatten]) node
    exact of_spine _ b hb (le_refl _)
  | printCommand node =>
    obtain ⟨b, hb⟩ := nest_hereDocuments hashAll node
    have hcall : Calls hashAll (printCommand node) (hereDocuments node) := by
      simp [Calls, calls]
    exact of_spine _ b (.call hcall hb) (Nat.le_succ _)
  | hereDocuments node =>
    obtain ⟨b, hb⟩ := nest_hereDocuments hashAll node
    exact of_spine _ b hb (le_refl _)
  | scriptCommand node =>
    obtain ⟨b, hb⟩ := nest_spine hashAll scriptCommand
      (by simp [Calls, calls, callsScript]) (by simp [Calls, calls, callsScript])
      (by simp [Calls, calls, callsScript]) node
    exact of_spine _ b hb (le_refl _)
  | _ => exact of_spine 0 _ (.here _) (le_refl _)

/-! ### Walks -/

/-- The walks the shell makes over a whole tree. -/
inductive Walk
  | evaluating | evaluatingInteractively | prehashing | printing | rendering | projecting
  deriving DecidableEq, Repr

def Walk.entry : Walk → Node → Activation
  | evaluating => evaluateTree
  | evaluatingInteractively => evaluateInteractiveSequence
  | prehashing => prehashTree
  | printing => functionDefinition
  | rendering => renderNode
  | projecting => scriptCommand

/-- On the trees of `S` the recursion of the walk is bounded by a function of
    their nesting alone. -/
def BoundedByNesting (hashAll : Bool) (walk : Walk) (S : Set Node) : Prop :=
  ∃ f : ℕ → ℕ, ∀ tree ∈ S, AtMost (Calls hashAll) (walk.entry tree) (f (nesting tree))

/-- On the trees of `S` the lists that the walk reaches with a function that
    takes them element by element have a length bounded by the nesting. -/
def ListsBounded (hashAll : Bool) (walk : Walk) (S : Set Node) : Prop :=
  ∃ g : ℕ → ℕ, ∀ tree ∈ S, ∀ n a, Nest (Calls hashAll) n (walk.entry tree) a →
    a.taken ≤ g (nesting tree)

theorem entry_subject (walk : Walk) (tree : Node) : (walk.entry tree).subject = .node tree := by
  cases walk <;> rfl

/-- **A walk is bounded by the nesting exactly on the trees whose lists it does
    not take element by element, or whose lists are short.** -/
theorem bounded_iff_lists_bounded (hashAll : Bool) (walk : Walk) (S : Set Node) :
    BoundedByNesting hashAll walk S ↔ ListsBounded hashAll walk S := by
  constructor
  · rintro ⟨f, hf⟩
    refine ⟨fun d => 2 * f d, ?_⟩
    intro tree htree n a ha
    obtain ⟨m, b, hb, hle⟩ := taken_nests hashAll a
    have := hf tree htree (n + m) b (ha.append hb)
    simp only
    omega
  · rintro ⟨g, hg⟩
    refine ⟨fun d => d * (g d + 3 + 1) + (g d + 3), ?_⟩
    intro tree htree
    have hsteps : ∀ n a, Nest (Calls hashAll) n (walk.entry tree) a →
        a.steps ≤ g (nesting tree) + 3 := by
      intro n a ha
      have := hg tree htree n a ha
      have := steps_le_taken a
      omega
    have hnested : AtMost Inside (walk.entry tree).subject (nesting tree) := by
      rw [entry_subject]
      exact nested_atMost tree
    apply AtMost.mono ((calls_descend hashAll).atMost hsteps hnested)
    exact Nat.add_le_add_left (hsteps 0 _ (.here _)) _

/-! ### A long list in a subshell -/

/-- The command `:`. -/
def colon : Node := .command [] [.word [.text [58] false]] []

/-- `:; :; …; :`, as the parser leaves it. -/
def longList : ℕ → Node
  | 0 => colon
  | n + 1 => .sequence (longList n) colon

/-- `( :; :; …; : )` -/
def subshellList (n : ℕ) : Node := .subshell (longList n) []

theorem longList_spine (n : ℕ) : (longList n).spine = n := by
  induction n with
  | zero => rfl
  | succ n ih => simp [longList, Node.spine, ih]

theorem longList_elements (n : ℕ) : ∀ e ∈ (longList n).elements, e = colon := by
  induction n with
  | zero => simp [longList, colon, Node.elements]
  | succ n ih =>
    intro e he
    rcases List.mem_append.1 he with he | he
    · exact ih e he
    · exact List.mem_singleton.1 he

theorem colon_atMost : AtMost Inside (.node colon) 2 := by
  apply AtMost.of_inside_all
  intro s hs
  obtain rfl : s = .node (.word [.text [58] false]) := by
    simpa [Inside, inside, insideNode, colon, redirectionWords] using hs
  apply AtMost.of_inside_all
  intro t ht
  obtain rfl : t = .word [.text [58] false] := by
    simpa [Inside, inside, insideNode] using ht
  apply AtMost.of_none
  intro u hu
  simp [Inside, inside, insidePart] at hu

theorem longList_atMost (n : ℕ) : AtMost Inside (.node (longList n)) 3 := by
  cases n with
  | zero => exact colon_atMost.mono (by decide)
  | succ n =>
    apply AtMost.of_inside_all
    intro s hs
    obtain ⟨e, he, rfl⟩ := List.mem_map.1 hs
    rw [longList_elements (n + 1) e he]
    exact colon_atMost

theorem subshellList_atMost (n : ℕ) : AtMost Inside (.node (subshellList n)) 4 := by
  apply AtMost.of_inside_all
  intro s hs
  obtain rfl : s = .node (longList n) := by
    simpa [Inside, inside, insideNode, subshellList, redirectionWords] using hs
  exact longList_atMost n

/-- Every walk goes down the list in the subshell element by element. -/
theorem subshellList_taken (hashAll : Bool) (walk : Walk) (n : ℕ) :
    ∃ k a, Nest (Calls hashAll) k (walk.entry (subshellList n)) a ∧ a.taken = n := by
  have hspine := longList_spine n
  have htree : Calls hashAll (evaluateTree (subshellList n)) (renderNode (longList n)) := by
    simp [Calls, calls, callsTree, subshellList, forkShell]
  cases walk with
  | evaluating => exact ⟨_, renderNode (longList n), .one htree, hspine⟩
  | evaluatingInteractively =>
    have hentry : Calls hashAll (evaluateInteractiveSequence (subshellList n))
        (evaluateTree (subshellList n)) := by
      simp [Calls, calls, callsInteractive, subshellList]
    exact ⟨_, renderNode (longList n), .call hentry (.one htree), hspine⟩
  | prehashing =>
    have hentry : Calls hashAll (prehashTree (subshellList n)) (prehashTree (longList n)) := by
      simp [Calls, calls, callsPrehash, subshellList]
    exact ⟨_, prehashTree (longList n), .one hentry, hspine⟩
  | printing =>
    have hentry : Calls hashAll (functionDefinition (subshellList n))
        (printList (subshellList n)) := by
      simp [Calls, calls, callsDefinition, subshellList]
    have hlist : Calls hashAll (printList (subshellList n)) (printCommand (subshellList n)) := by
      simp [Calls, calls, Node.items, subshellList]
    have hcommand : Calls hashAll (printCommand (subshellList n))
        (hereDocuments (subshellList n)) := by
      simp [Calls, calls]
    have hunder : Calls hashAll (hereDocuments (subshellList n))
        (hereDocuments (longList n)) := by
      simp [Calls, calls, children, subshellList]
    exact ⟨_, hereDocuments (longList n),
      .call hentry (.call hlist (.call hcommand (.one hunder))), hspine⟩
  | rendering =>
    have hentry : Calls hashAll (renderNode (subshellList n)) (renderNode (longList n)) := by
      simp [Calls, calls, callsRender, subshellList]
    exact ⟨_, renderNode (longList n), .one hentry, hspine⟩
  | projecting =>
    have hentry : Calls hashAll (scriptCommand (subshellList n))
        (scriptCommand (longList n)) := by
      simp [Calls, calls, callsScript, subshellList]
    exact ⟨_, scriptCommand (longList n), .one hentry, hspine⟩

/-- No function of the nesting bounds a walk over a list of any length in a
    subshell. -/
theorem subshellList_unbounded (hashAll : Bool) (walk : Walk) :
    ¬BoundedByNesting hashAll walk (Set.range subshellList) := by
  rw [bounded_iff_lists_bounded]
  rintro ⟨g, hg⟩
  obtain ⟨most, hmost⟩ : ∃ most, ∀ d, d ≤ 4 → g d ≤ most := by
    refine ⟨g 0 + g 1 + g 2 + g 3 + g 4, ?_⟩
    intro d hd
    obtain rfl | rfl | rfl | rfl | rfl : d = 0 ∨ d = 1 ∨ d = 2 ∨ d = 3 ∨ d = 4 := by omega
    all_goals omega
  obtain ⟨k, a, ha, htaken⟩ := subshellList_taken hashAll walk (most + 1)
  have hle := hg _ ⟨most + 1, rfl⟩ k a ha
  have := hmost (nesting (subshellList (most + 1))) (subshellList_atMost (most + 1)).depth_le
  omega

/-- **Where a list costs no stack per element.**  On any set of trees a walk is
    bounded by the nesting exactly when the lists it takes element by element are;
    no walk is on all trees. -/
theorem list_stack (hashAll : Bool) :
    (∀ (walk : Walk) (S : Set Node),
      BoundedByNesting hashAll walk S ↔ ListsBounded hashAll walk S) ∧
    ∀ walk : Walk, ¬BoundedByNesting hashAll walk Set.univ := by
  refine ⟨bounded_iff_lists_bounded hashAll, ?_⟩
  rintro walk ⟨f, hf⟩
  exact subshellList_unbounded hashAll walk ⟨f, fun tree _ => hf tree (Set.mem_univ tree)⟩

/-- Evaluating `( :; :; …; : )`, for one: the child's description in the job
    table goes down the list. -/
theorem not_list_stack :
    ¬∀ walk : Walk, BoundedByNesting false walk (Set.range subshellList) := by
  intro h
  exact subshellList_unbounded false .evaluating (h .evaluating)

end Nsh.Nodes
