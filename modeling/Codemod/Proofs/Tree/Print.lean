/-
What a replacement prints.

In a shaped tree only leaves have a text of their own, so a tree prints
the parts of a node one after the other. A replacement is printed where
the node it replaces was printed, behind the blank that was there; all
else is printed as before.

Main statement: `render_splice`. What stands in front of a replacement
and the replacement are not read again. Without a blank between them they
can become one token.
-/
import Codemod.Proofs.Tree.Splice
import Codemod.Rule.Idiom

namespace Codemod

namespace Node

-- ============================================================ identities

mutual

theorem code_copy (n : Node) : n.copy.code = n.code := by
  obtain ⟨i, s, b, r, l, t, cs, z⟩ := n
  cases t with
  | some t => rfl
  | none => rw [copy, code, code, codeAll_copyAll cs]

theorem codeAll_copyAll (cs : List Node) : codeAll (copyAll cs) = codeAll cs := by
  cases cs with
  | nil => rfl
  | cons c cs =>
      have hlead : c.copy.lead = c.lead := by
        obtain ⟨i, s, b, r, l, t, ds, z⟩ := c
        rfl
      rw [copyAll, codeAll, codeAll, hlead, code_copy c, codeAll_copyAll cs]

end

/-- Numbers are not printed. -/
theorem code_number (k : Nat) (n : Node) : (n.number k).1.code = n.code := by
  rw [← code_copy, copy_number, code_copy]

theorem code_renumber (k : Nat) (n : Node) : (n.renumber k).1.code = n.code := by
  rw [← code_copy, copy_renumber, code_copy]

theorem lead_number (k : Nat) (n : Node) : (n.number k).1.lead = n.lead := by
  rw [number_eq]

/-- A node that is no leaf prints its children. -/
theorem code_of_text_none {n : Node} (h : n.text = none) :
    n.code = codeAll n.children ++ n.tail := by
  obtain ⟨i, s, b, r, l, t, cs, z⟩ := n
  obtain rfl : t = none := h
  rw [code]

end Node

namespace Cursor

/-- What the whole prints before and behind a place does not depend on
what stands there. -/
theorem render_plug {above : List (Node × Nat)} {n : Node}
    (h : PlacedIn n above) (hroot : (rootIn n above).Shaped) :
    ∃ before after, ∀ r : Node, r.lead = n.lead →
      (plug above r).render = before ++ (n.lead ++ (r.code ++ after)) := by
  induction above generalizing n with
  | nil =>
      refine ⟨[], [], fun r hr => ?_⟩
      rw [plug, Node.render, hr, List.nil_append, List.append_nil]
  | cons pi up ih =>
      obtain ⟨p, i⟩ := pi
      obtain ⟨before, after, hup⟩ := ih h.2 hroot
      obtain ⟨hi, -⟩ := List.getElem?_eq_some_iff.1 h.1
      have hp : p.Shaped := by
        have hplaced : (⟨p, up⟩ : Cursor).Placed := h.2
        exact hroot.of_mem_walk (node_mem_walk hplaced.mem_walk_root)
      have htext : p.text = none := by
        rw [← Option.not_isSome_iff_eq_none]
        intro hsome
        rw [hp.formed.worded hsome] at hi
        cases hi
      refine ⟨before ++ (p.lead ++ Node.codeAll (p.children.take i)),
        Node.codeAll (p.children.drop (i + 1)) ++ (p.tail ++ after), fun r hr => ?_⟩
      have hcode : ({ p with children := p.children.set i r } : Node).code
          = Node.codeAll (p.children.set i r) ++ p.tail :=
        Node.code_of_text_none htext
      rw [plug, hup { p with children := p.children.set i r } rfl, hcode,
        List.set_eq_take_append_cons_drop, if_pos hi, Node.codeAll_append,
        Node.codeAll_cons, hr]
      simp only [List.append_assoc]

end Cursor

namespace Workspace

variable {w : Workspace} {c p : Cursor}

/-- A replacement is printed in the place of the node it replaces, behind
the node's lead; around it the program prints what it did. -/
theorem render_splice (hw : w.Sound) (hc : c ∈ (Cursor.top w.program).walk)
    (hp : c.parent? = some p) (new : Node) :
    ∃ before after,
      w.render = before ++ (c.node.lead ++ (c.node.code ++ after))
        ∧ (w.splice p.node c.node new).render
          = before ++ (c.node.lead ++ ((fitted p.node c.node new).code ++ after)) := by
  have hplaced := (Cursor.mem_walk_top.1 hc).1
  obtain ⟨before, after, hplug⟩ := Cursor.render_plug hplaced
    (by rw [rootIn_eq hc]; exact hw.shaped)
  refine ⟨before, after, ?_, ?_⟩
  · rw [render, ← rootIn_eq hc, ← Cursor.plug_eq_rootIn hplaced, hplug _ rfl]
  · rw [render, (program_splice hw hc hp new).1, hplug, inserted, Node.code_number]
    rw [inserted, Node.lead_number]
    rfl

end Workspace

/-- A minus ends a word, a name goes on with it: the replacement and the
`return` in front of it are read as one name, and the statement is gone. -/
theorem Rules.includes_merges_return :
    ∃ n m, parse (Text.ofString "function f(){var xs=[1];return-1!==xs.indexOf(1)}")
        = .ok n
      ∧ parse (includes.apply .default (.ofProgram n)).1.render = .ok m
      ∧ (includes.apply .default (.ofProgram n)).1.program.walk.any
        (·.is .returnStatement) = true
      ∧ m.walk.any (·.is .returnStatement) = false := by
  obtain ⟨n, hn, h⟩ := exists_of_parse_any
    (Text.ofString "function f(){var xs=[1];return-1!==xs.indexOf(1)}")
    (fun n => (includes.apply .default (.ofProgram n)).1.program.walk.any
        (·.is .returnStatement)
      && (parse (includes.apply .default (.ofProgram n)).1.render).toOption.any
        fun m => !m.walk.any (·.is .returnStatement))
    (by decide +kernel)
  rw [Bool.and_eq_true] at h
  obtain ⟨m, hm, hgone⟩ := exists_of_parse_any _ _ h.2
  rw [Bool.not_eq_true'] at hgone
  exact ⟨n, m, hn, hm, h.1, hgone⟩

end Codemod
