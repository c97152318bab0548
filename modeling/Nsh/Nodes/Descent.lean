import Nsh.Nodes.Nesting

/-!
# What the calls of a walk go to

One lemma for each function that walks a tree: a call goes further inside, or
spends one of the steps its caller has (`calls_descend`).
-/

namespace Nsh.Nodes

open Nsh Nsh.Depth Activation

/-! ### What a call goes to -/

/-- The calls an activation can still open without going further inside. -/
def Activation.steps : Activation → ℕ
  | evaluateInteractiveSequence node => node.sequenceSpine + 2
  | evaluateTree _ => 1
  | evaluateList (.and _ _) | evaluateList (.or _ _) | evaluateList (.sequence _ _) => 0
  | evaluateList _ => 2
  | prehashTree node | renderNode node | hereDocuments node | scriptCommand node
  | clone (.node node) => node.spine
  | flatten node => node.sequenceSpine
  | printCommand node => node.spine + 1
  | printList node => node.spine + 2
  | functionDefinition body => body.spine + 3
  | _ => 0

/-- A call goes further inside, or spends a step. -/
def Goes (a b : Activation) : Prop :=
  Further Inside a.subject b.subject ∨ (Sees Inside a.subject b.subject ∧ b.steps < a.steps)

theorem Goes.of_inside {a b : Activation} (h : b.subject ∈ inside a.subject) : Goes a b :=
  .inl (.of_inside h)

theorem goes_left {left right list : Node} {a b : Activation}
    (h : insideNode list = (left.elements ++ [right]).map .node)
    (ha : a.subject = .node list) (hb : b.subject = .node left) (hs : b.steps < a.steps) :
    Goes a b := by
  unfold Goes
  rw [ha, hb]
  cases left_inside h with
  | inl further => exact .inl further
  | inr sees => exact .inr ⟨sees, hs⟩

theorem goes_prehash {node : Node} {b : Activation} (h : b ∈ callsPrehash node) :
    Goes (prehashTree node) b := by
  cases node with
  | and l r | or l r | sequence l r =>
    simp only [callsPrehash, List.mem_cons, List.not_mem_nil, or_false] at h
    rcases h with rfl | rfl
    · exact goes_left rfl rfl rfl (Nat.lt_succ_self _)
    · apply Goes.of_inside
      simp [inside, insideNode, subject]
  | bash node =>
    apply Goes.of_inside
    cases node <;> grind [callsPrehash, inside, insideNode, insideBash, subject]
  | _ =>
    apply Goes.of_inside
    grind [callsPrehash, inside, insideNode, subject]

theorem goes_render {node : Node} {b : Activation} (h : b ∈ callsRender node) :
    Goes (renderNode node) b := by
  cases node with
  | and l r | or l r | sequence l r =>
    simp only [callsRender, List.mem_cons, List.not_mem_nil, or_false] at h
    rcases h with rfl | rfl
    · exact goes_left rfl rfl rfl (Nat.lt_succ_self _)
    · apply Goes.of_inside
      simp [inside, insideNode, subject]
  | _ =>
    apply Goes.of_inside
    grind [callsRender, inside, insideNode, subject]

theorem goes_clone {syntax' : Syntax} {b : Activation} (h : b ∈ callsClone syntax') :
    Goes (clone syntax') b := by
  cases syntax' with
  | node node =>
    cases node with
    | and l r | or l r | sequence l r =>
      simp only [callsClone, List.mem_cons, List.not_mem_nil, or_false] at h
      rcases h with rfl | rfl
      · exact goes_left rfl rfl rfl (Nat.lt_succ_self _)
      · apply Goes.of_inside
        simp [inside, insideNode, subject]
    | _ =>
      apply Goes.of_inside
      grind [callsClone, subject]
  | _ =>
    apply Goes.of_inside
    grind [callsClone, subject]

theorem goes_script {node : Node} {b : Activation} (h : b ∈ callsScript node) :
    Goes (scriptCommand node) b := by
  cases node with
  | and l r | or l r | sequence l r =>
    simp only [callsScript, List.mem_cons, List.not_mem_nil, or_false] at h
    rcases h with rfl | rfl
    · exact goes_left rfl rfl rfl (Nat.lt_succ_self _)
    · apply Goes.of_inside
      simp [inside, insideNode, subject]
  | command assignments arguments redirections =>
    simp only [callsScript, List.mem_flatMap] at h
    obtain ⟨n, hn, hb⟩ := h
    cases n with
    | word word =>
      -- the word is inside its argument, which is inside the command
      left
      apply Further.of_transGen
      have hcommand : Inside (.node (.command assignments arguments redirections))
          (.node (.word word)) := by
        simp [Inside, inside, insideNode, hn]
      have hword : Inside (.node (.word word)) (.word word) := by
        simp [Inside, inside, insideNode]
      simp only [callsAssignment, List.mem_cons, List.not_mem_nil, or_false] at hb
      rcases hb with rfl | rfl <;> exact .tail (.single hcommand) hword
    | _ => simp [callsAssignment] at hb
  | _ =>
    apply Goes.of_inside
    grind [callsScript, inside, insideNode, subject]

theorem goes_hereDocuments {node : Node} {b : Activation}
    (h : b ∈ (children node).map hereDocuments) : Goes (hereDocuments node) b := by
  cases node with
  | and l r | or l r | sequence l r =>
    simp only [children, List.map_cons, List.map_nil, List.mem_cons, List.not_mem_nil,
      or_false] at h
    rcases h with rfl | rfl
    · exact goes_left rfl rfl rfl (Nat.lt_succ_self _)
    · apply Goes.of_inside
      simp [inside, insideNode, subject]
  | bash node =>
    apply Goes.of_inside
    cases node <;> grind [children, inside, insideNode, insideBash, subject]
  | _ =>
    apply Goes.of_inside
    grind [children, inside, insideNode, subject]

theorem goes_flatten {node : Node} {b : Activation} (h : b ∈ callsFlatten node) :
    Goes (flatten node) b := by
  cases node with
  | sequence l r =>
    simp only [callsFlatten, List.mem_cons, List.not_mem_nil, or_false] at h
    rcases h with rfl | rfl
    · exact goes_left rfl rfl rfl (Nat.lt_succ_self _)
    · apply Goes.of_inside
      simp [inside, insideNode, subject]
  | _ => simp [callsFlatten] at h

theorem goes_interactive {node : Node} {b : Activation} (h : b ∈ callsInteractive node) :
    Goes (evaluateInteractiveSequence node) b := by
  cases node with
  | sequence l r =>
    simp only [callsInteractive, List.mem_cons, List.not_mem_nil, or_false] at h
    rcases h with rfl | rfl
    · apply goes_left rfl rfl rfl
      simp [steps, Node.sequenceSpine]
    · apply Goes.of_inside
      simp [inside, insideNode, subject]
  | _ =>
    simp only [callsInteractive, List.mem_singleton] at h
    subst h
    right
    exact ⟨.refl _, by simp [steps, Node.sequenceSpine]⟩

theorem goes_list {node : Node} {b : Activation} (h : b ∈ node.elements.map evaluateTree) :
    Goes (evaluateList node) b := by
  obtain ⟨element, helement, rfl⟩ := List.mem_map.1 h
  cases node with
  | and l r | or l r | sequence l r =>
    apply Goes.of_inside
    simpa [inside, insideNode, subject, Node.elements] using helement
  | _ =>
    simp only [Node.elements, List.mem_singleton] at helement
    subst helement
    right
    exact ⟨.refl _, by simp [steps]⟩

theorem goes_tree {hashAll : Bool} {node : Node} {b : Activation}
    (h : b ∈ callsTree hashAll node) : Goes (evaluateTree node) b := by
  cases node with
  | and l r | or l r | sequence l r =>
    simp only [callsTree, List.mem_singleton] at h
    subst h
    right
    exact ⟨.refl _, by simp [steps]⟩
  | command assignments arguments redirections =>
    simp only [callsTree, List.mem_append, List.mem_cons, List.not_mem_nil, or_false] at h
    rcases h with h | rfl | rfl
    · apply Goes.of_inside
      grind [expandRedirections, inside, insideNode, subject]
    · right
      exact ⟨.refl _, by simp [steps, Node.spine]⟩
    · right
      exact ⟨.refl _, by simp [steps, Node.spine]⟩
  | bash node =>
    apply Goes.of_inside
    cases node <;> grind [callsTree, defineFunction, inside, insideNode, insideBash, subject]
  | _ =>
    apply Goes.of_inside
    grind [callsTree, defineFunction, expandRedirections, forkShell, inside, insideNode, subject]

theorem goes_argument {node : Node} {b : Activation} (h : b ∈ callsArgument node) :
    Goes (expandArgument node) b := by
  apply Goes.of_inside
  cases node with
  | bash node => cases node <;> grind [callsArgument, inside, insideNode, insideBash, subject]
  | _ => grind [callsArgument, inside, insideNode, subject]

theorem goes_conditional {expression : BashConditionalExpr} {b : Activation}
    (h : b ∈ callsConditional expression) : Goes (evaluateConditional expression) b := by
  apply Goes.of_inside
  cases expression <;> grind [callsConditional, inside, insideConditional, subject]

/-- What is in a part of a word is in the word. -/
theorem inside_word {word : ParsedWord} {part : WordPart} {s : Syntax} (hpart : part ∈ word)
    (h : s ∈ insidePart part) : Inside (.word word) s := by
  simp only [Inside, inside, List.mem_flatMap]
  exact ⟨part, hpart, h⟩

/-- The body of a process substitution is inside the word that holds it. -/
theorem further_substitution {word : ParsedWord} {direction : BashProcessDirection}
    {quoted : Bool} {body : Node}
    (h : .command (some (.bash (.processSubstitution direction (some body)))) quoted ∈ word) :
    Further Inside (.word word) (.node body) := by
  apply Further.of_transGen
  have hnode : Inside (.word word) (.node (.bash (.processSubstitution direction (some body)))) :=
    inside_word h (by simp [insidePart])
  have hbody : Inside (.node (.bash (.processSubstitution direction (some body))))
      (.node body) := by
    simp [Inside, inside, insideNode, insideBash]
  exact .tail (.single hnode) hbody

theorem goes_expand {word : ParsedWord} {b : Activation}
    (h : b ∈ word.flatMap callsExpansion) : Goes (expandWord word) b := by
  obtain ⟨part, hpart, hb⟩ := List.mem_flatMap.1 h
  have key : b.subject ∈ insidePart part → Goes (expandWord word) b :=
    fun hin => .of_inside (inside_word hpart hin)
  cases part with
  | command command quoted =>
    rcases command with _ | node
    · simp [callsExpansion] at hb
    · cases node with
      | bash node =>
        cases node with
        | processSubstitution direction body =>
          rcases body with _ | body
          · simp [callsExpansion] at hb
          · simp only [callsExpansion, Option.toList_some, List.map_cons, List.map_nil,
              List.mem_singleton] at hb
            subst hb
            exact .inl (further_substitution hpart)
        | _ => exact key (by grind [callsExpansion, forkShell, insidePart, subject])
      | _ => exact key (by grind [callsExpansion, forkShell, insidePart, subject])
  | _ => exact key (by grind [callsExpansion, insidePart, subject])

theorem goes_spelled {word : ParsedWord} {b : Activation}
    (h : b ∈ word.flatMap callsSpelled) : Goes (spelledWord word) b := by
  obtain ⟨part, hpart, hb⟩ := List.mem_flatMap.1 h
  have key : b.subject ∈ insidePart part → Goes (spelledWord word) b :=
    fun hin => .of_inside (inside_word hpart hin)
  cases part with
  | command command quoted =>
    rcases command with _ | node
    · simp [callsSpelled] at hb
    · cases node with
      | bash node =>
        cases node with
        | processSubstitution direction body =>
          rcases body with _ | body
          · simp [callsSpelled] at hb
          · simp only [callsSpelled, Option.toList_some, List.map_cons, List.map_nil,
              List.mem_singleton] at hb
            subst hb
            exact .inl (further_substitution hpart)
        | _ => exact key (by grind [callsSpelled, insidePart, subject])
      | _ => exact key (by grind [callsSpelled, insidePart, subject])
  | _ => exact key (by grind [callsSpelled, insidePart, subject])

theorem goes_renderWord {word : ParsedWord} {b : Activation}
    (h : b ∈ word.flatMap callsRenderPart) : Goes (renderWord word) b := by
  obtain ⟨part, hpart, hb⟩ := List.mem_flatMap.1 h
  apply Goes.of_inside
  apply inside_word hpart
  cases part <;> grind [callsRenderPart, insidePart, subject]

/-- A command `flatten` collects is on the left spine, or further inside. -/
theorem items_further (node : Node) :
    ∀ item ∈ node.items, Further Inside (.node node) (.node item) ∨
      (Sees Inside (.node node) (.node item) ∧ item.spine ≤ node.spine) := by
  fun_induction Node.items node with
  | case1 left right ihl ihr =>
    intro item hitem
    have hleft : Further Inside (.node (.sequence left right)) (.node left) ∨
        Sees Inside (.node (.sequence left right)) (.node left) := left_inside rfl
    have hright : Inside (.node (.sequence left right)) (.node right) := by
      simp [Inside, inside, insideNode]
    rcases List.mem_append.1 hitem with hitem | hitem
    · rcases ihl item hitem with ⟨c, hc, hsees⟩ | ⟨hsees, hspine⟩
      · left
        rcases hleft with ⟨d, hd, hdl⟩ | hl
        · exact ⟨c, hd.trans (transGen_of_sees hdl hc), hsees⟩
        · exact ⟨c, transGen_of_sees hl hc, hsees⟩
      · rcases hleft with ⟨d, hd, hdl⟩ | hl
        · exact .inl ⟨d, hd, hdl.trans hsees⟩
        · refine .inr ⟨hl.trans hsees, ?_⟩
          simp only [Node.spine]
          omega
    · left
      rcases ihr item hitem with ⟨c, hc, hsees⟩ | ⟨hsees, _⟩
      · exact ⟨c, .head hright hc, hsees⟩
      · exact ⟨_, .single hright, hsees⟩
  | case2 node _ =>
    intro item hitem
    simp only [List.mem_singleton] at hitem
    subst hitem
    exact .inr ⟨.refl _, le_refl _⟩

theorem Node.sequenceSpine_le (node : Node) : node.sequenceSpine ≤ node.spine := by
  fun_induction Node.sequenceSpine node with
  | case1 left right ih => exact Nat.succ_le_succ ih
  | case2 node _ => exact Nat.zero_le _

theorem goes_printList {node : Node} {b : Activation}
    (h : b ∈ flatten node :: node.items.map printCommand) : Goes (printList node) b := by
  rcases List.mem_cons.1 h with rfl | h
  · right
    have := node.sequenceSpine_le
    exact ⟨.refl _, by simp only [steps]; omega⟩
  · obtain ⟨item, hitem, rfl⟩ := List.mem_map.1 h
    rcases items_further node item hitem with further | ⟨sees, hspine⟩
    · exact .inl further
    · refine .inr ⟨sees, ?_⟩
      simp only [steps]
      omega

theorem goes_definition {body : Node} {b : Activation} (h : b ∈ callsDefinition body) :
    Goes (functionDefinition body) b := by
  unfold callsDefinition at h
  split at h <;> rw [List.mem_singleton] at h <;> subst h
  · apply Goes.of_inside
    simp [inside, insideNode, subject]
  · right
    exact ⟨.refl _, by simp [steps]⟩

/-- **A call of a walk goes further inside or spends a step.** -/
theorem calls_descend (hashAll : Bool) :
    Descends (Calls hashAll) Inside Activation.subject Activation.steps := by
  intro a b hab
  change Goes a b
  cases a with
  | evaluateInteractiveSequence node => exact goes_interactive hab
  | evaluateTree node => exact goes_tree hab
  | evaluateList node => exact goes_list hab
  | expandArgument node => exact goes_argument hab
  | expandWord word => exact goes_expand hab
  | evaluateConditional expression => exact goes_conditional hab
  | prehashTree node => exact goes_prehash hab
  | clone syntax' => exact goes_clone hab
  | renderNode node => exact goes_render hab
  | renderWord word => exact goes_renderWord hab
  | functionDefinition body => exact goes_definition hab
  | printList node => exact goes_printList hab
  | flatten node => exact goes_flatten hab
  | printCommand node =>
    rw [List.mem_singleton.1 hab]
    exact .inr ⟨.refl _, Nat.lt_succ_self _⟩
  | hereDocuments node => exact goes_hereDocuments hab
  | spelledWord word => exact goes_spelled hab
  | scriptCommand node => exact goes_script hab

end Nsh.Nodes
