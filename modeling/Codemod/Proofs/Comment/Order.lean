/-
What the rules write keeps comments in order.

A rule builds what it writes from the receiver and the arguments of a
call, in this order. So the comments in what it writes are some of those
in what it replaces, in the same order (`Rewrite.inOrder`). There are two
exceptions (`Rewrite.Rearranges`): a comparison, of which the parts may
change places, and a receiver whose element is written a second time,
with the comments around it.
-/
import Codemod.Proofs.Comment.Tree
import Codemod.Proofs.Rule.Parts

namespace Codemod

namespace Cursor

variable {c d m o call other : Cursor} {name : Text}

-- ================================================================== parts

/-- The comments of the parts of an expression, one part after the
other. -/
theorem comments_parts {s : Symbol} {roles : List Role} (h : c.node.Formed)
    (hk : c.is s = true) (hr : Node.partRoles? s = some roles)
    (hnd : roles.Nodup) :
    ((roles.filterMap c.child?).flatMap (·.node.comments)).Sublist
      c.node.comments := by
  have hfits := h.parts s roles (by simpa [is, Node.is] using hk) hr
  have hparts : ((roles.filterMap c.child?).map (·.node)).Sublist
      c.node.children := by
    rw [map_node_parts, ← hfits.filter_eq hnd]
    exact List.filter_sublist
  have hcomments := hparts.flatMap Node.comments
  rw [List.flatMap_map] at hcomments
  rw [Node.comments_eq c.node]
  exact hcomments.trans (List.sublist_append_right _ _)

theorem comments_sublist (h : d ∈ c.walk) :
    d.node.comments.Sublist c.node.comments :=
  Node.comments_sublist_of_mem_walk (node_mem_walk h)

/-- A name or `this` has no comments. -/
theorem comments_atom (h : c.node.Shaped) (hk : c.isAny Node.atomSymbols = true) :
    c.node.comments = [] := by
  have hnil : c.node.children = [] := by
    refine h.formed.plain ?_
    rw [Node.isAtom, Bool.or_eq_true]
    exact Or.inr hk
  rw [Node.comments_of_not, hnil, List.flatMap_nil]
  obtain ⟨s, hs, hk⟩ := List.any_eq_true.1 hk
  have hno : ∀ s ∈ Node.atomSymbols, s ≠ .comment := by decide
  have hkind : c.node.kind = .symbol s := by simpa [Node.is] using hk
  simp [Node.is, hkind, hno s hs]

theorem comments_arguments (c : Cursor) :
    (c.arguments.flatMap (·.node.comments)).Sublist
      ((c.child? .arguments).toList.flatMap (·.node.comments)) := by
  unfold arguments
  cases ha : c.child? .arguments with
  | none => simp
  | some a =>
      cases hka : a.is .arguments with
      | false => simp [hka]
      | true =>
          simp only [hka, if_true, Option.toList_some, List.flatMap_cons,
            List.flatMap_nil, List.append_nil]
          have hops : (a.operands.map (·.node)).Sublist a.node.children := by
            rw [map_node_operands]
            exact List.filter_sublist
          have hcomments := hops.flatMap Node.comments
          rw [List.flatMap_map] at hcomments
          rw [Node.comments_eq a.node]
          exact hcomments.trans (List.sublist_append_right _ _)

/-- The comments of the receiver of a method call, and then those of the
arguments. -/
theorem comments_methodCall (h : c.node.Shaped) (hk : c.is .callExpression = true)
    (hm : c.calledMember? = some (m, name)) (ho : m.child? .object = some o) :
    (o.node.comments ++ c.arguments.flatMap (·.node.comments)).Sublist
      c.node.comments := by
  obtain ⟨f, hf, rfl⟩ := inner?_eq_some.1 (calledMember?_eq_some hm).1
  refine List.Sublist.trans ?_ (comments_parts h.formed hk rfl (by decide))
  rw [List.filterMap_eq_flatMap_toList]
  simp only [List.flatMap_cons, List.flatMap_nil, List.append_nil,
    List.flatMap_append, hf, Option.toList_some]
  refine List.Sublist.append ?_ (comments_arguments c)
  exact comments_sublist (mem_walk_trans (unparen_mem_walk f)
    (mem_walk_of_child? ho))

theorem comments_all_arguments (c : Cursor) :
    (c.arguments.flatMap (·.node.comments)).Sublist c.node.comments := by
  refine (comments_arguments c).trans ?_
  cases ha : c.child? .arguments with
  | none => exact List.nil_sublist _
  | some a => simpa using comments_sublist (mem_walk_of_child? ha)

theorem comments_mem_arguments (h : d ∈ c.arguments) :
    d.node.comments.Sublist c.node.comments :=
  comments_sublist (mem_walk_of_mem_arguments h)

end Cursor

namespace Node

-- ============================================================== callbacks

/-- Something without comments in the place of nodes of a tree. -/
theorem comments_substitute {i : Nat} {f : Node → Node → Node}
    (hf : ∀ p o, (f p o).comments = []) (n : Node) :
    (n.substitute i f).comments.Sublist n.comments := by
  induction n using Node.ind with
  | h n ih =>
      rw [substitute_eq, comments_eq, comments_eq n, List.flatMap_map]
      refine List.Sublist.append (List.Sublist.refl _)
        (List.Sublist.flatMap_right _ fun c hc => ?_)
      unfold substituteChild
      split
      · rw [hf]
        exact List.nil_sublist _
      · exact ih c hc

theorem comments_replacing {whole : Node} {old : Cursor} {new : Node}
    (h : new.comments = []) : (whole.replacing old new).comments.Sublist
      whole.comments := by
  unfold replacing
  split
  · exact comments_substitute (fun p o => by rw [Workspace.comments_fitted, h]) whole
  · exact List.Sublist.refl _

theorem comments_exchanging {whole : Node} {first second : Cursor}
    (h : first.node.comments = []) (h' : second.node.comments = []) :
    (whole.exchanging first second).comments.Sublist whole.comments := by
  unfold exchanging
  split
  · exact comments_replacing (by simp [h, h'])
  · exact List.Sublist.refl _

end Node

/-- Where two parameters change places, no comment is added. -/
theorem Cursor.comments_exchanging {f index value : Cursor} (hs : f.node.Shaped)
    (hp : f.simpleParameters? = some [index, value]) (whole : Node) :
    (whole.exchanging index value).comments.Sublist whole.comments := by
  obtain ⟨ps, hps, hops, hindex, hvalue⟩ := simpleParameters?_pair hp
  have hname {d : Cursor} (hd : d ∈ ps.operands) (hk : d.is .identifier = true) :
      d.node.comments = [] := by
    refine comments_atom ?_ (List.any_eq_true.2 ⟨_, by decide, hk⟩)
    exact (shaped_of_child? hs hps).of_mem_children
      (node_mem_of_mem_children (mem_children_of_mem_operands hd))
  exact Node.comments_exchanging (hname (by rw [hops]; simp) hindex)
    (hname (by rw [hops]; simp) hvalue)

/-- Nor where `this` gets a name. -/
theorem Rules.comments_visitor {callback f : Cursor} {params : List Cursor}
    (hs : f.node.Shaped) (hp : f.simpleParameters? = some params) :
    (Rules.visitor callback f params).comments.Sublist callback.node.comments := by
  have hnamed (name : Text) (ns : List Cursor) (whole : Node) :
      (ns.foldl (fun whole n => whole.replacing n (Build.identifier name))
        whole).comments.Sublist whole.comments := by
    induction ns generalizing whole with
    | nil => exact List.Sublist.refl _
    | cons n ns ih => exact (ih _).trans (Node.comments_replacing (by simp))
  unfold Rules.visitor
  split
  · exact (Cursor.comments_exchanging hs hp _).trans (hnamed _ _ _)
  · exact List.Sublist.refl _

-- ================================================================ rewrites

/-- The wrapper is made of the argument, itself or as the value of a
name. -/
def Cursor.Wraps (o a : Cursor) : Prop :=
  o.arguments = [a]
    ∨ ∃ init, o.resolve? o.code = some init ∧ init.unparen.arguments = [a]

/-- The rewrite may put comments in another order or write one twice: it
rewrites a comparison, or a call on a wrapper whose element can be
written twice and has comments around it. -/
inductive Rewrite.Rearranges (r : Rewrite) : Prop where
  | comparison : r.site.is .binaryExpression = true → Rearranges r
  | element {o a : Cursor} : r.site.receiver? = some o → o.Wraps a →
    a.node.comments ≠ [] →
    (o.is .identifier = true ∨ a.node.strip.isAny [.identifier, .thisExpr] = true) →
    Rearranges r

section Forms

variable {context : RuleContext} {c m o : Cursor} {name : Text}
  {methods : List String} {new target : Node}

@[simp] theorem Build.comments_path (e : Node) (path : List Text) :
    (Build.path e path).comments = e.comments := by
  induction path generalizing e with
  | nil => rfl
  | cons t path ih =>
      rw [Build.path, List.foldl_cons]
      exact (ih (Build.member e t)).trans (Build.comments_member e t)

/-- The element behind a receiver has some of the receiver's comments,
unless it is copied. -/
theorem ElementOf.comments (h : ElementOf context o target)
    (hcopy : ∀ a, o.Wraps a → o.is .identifier = true → a.node.comments = []) :
    target.comments.Sublist o.node.comments := by
  cases h with
  | moved _ ha _ =>
      exact Cursor.comments_mem_arguments (by rw [ha]; exact List.mem_singleton.2 rfl)
  | lookedUp _ _ _ _ => simp [elementById]
  | copied hk hinit _ ha _ _ =>
      rw [Node.comments_copy, hcopy _ (Or.inr ⟨_, hinit, ha⟩) hk]
      exact List.nil_sublist _

theorem MethodForm.inOrder (hc : c.Stands) (hk : c.is .callExpression = true)
    (hm : c.calledMember? = some (m, name))
    (hcopy : ∀ o a, c.receiver? = some o → o.Wraps a →
      o.is .identifier = true ∨ a.node.strip.isAny [.identifier, .thisExpr] = true →
      a.node.comments = [])
    (h : MethodForm context c m name methods new) :
    new.comments.Sublist c.node.comments := by
  -- the receiver's element, and then some of the arguments
  have hparts {target : Node} {k : List Cursor} (ht : m.HasElement context target)
      (hkept : k.Sublist c.arguments) :
      (target.comments ++ k.flatMap (·.node.comments)).Sublist c.node.comments := by
    obtain ⟨o, ho, helement⟩ := ht
    have hreceiver : c.receiver? = some o.unparen := by
      rw [Cursor.receiver?, hm]
      exact Cursor.inner?_eq_some.2 ⟨o, ho, rfl⟩
    refine List.Sublist.trans (List.Sublist.append ?_ (hkept.flatMap _))
      (Cursor.comments_methodCall hc.node hk hm ho)
    exact (helement.comments fun a ha hident => hcopy _ a hreceiver ha (Or.inl hident)).trans
      (Cursor.comments_sublist (Cursor.unparen_mem_walk o))
  have helement {target : Node} (ht : m.HasElement context target) :
      target.comments.Sublist c.node.comments := by
    simpa using hparts ht (List.nil_sublist _)
  have hargs {k : List Cursor} (hkept : k.Sublist c.arguments) :
      (k.flatMap (·.node.comments)).Sublist c.node.comments :=
    (hkept.flatMap _).trans c.comments_all_arguments
  cases h with
  | @tell _ target _ path words kept _ _ _ ht hkept =>
      have hwords : (words.map Build.string).flatMap Node.comments = [] := by
        simp [List.flatMap_eq_nil_iff]
      simpa [List.flatMap_map, hwords] using hparts ht hkept
  | read _ _ _ ht => simpa using helement ht
  | prop _ ht => simpa using helement ht
  | write _ _ _ ht hv => simpa using hparts ht (List.singleton_sublist.2 hv)
  | display _ _ _ ht => simpa using helement ht
  | computed ht => simpa using helement ht
  | dispatch ht hone => simpa using hparts ht (k := [_]) (by rw [hone])
  | size _ _ => simp
  | loaded _ _ hone => simpa [Rules.whenLoaded] using hargs (k := [_]) (by rw [hone])
  | neighbour _ _ ht => simpa [rewrap] using helement ht
  | found _ ht hone => simpa [rewrap] using hparts ht (k := [_]) (by rw [hone])
  | closest _ ht hone _ => simpa [rewrap] using hparts ht (k := [_]) (by rw [hone])
  | @siblings _ target _ ht _ _ hatom =>
      -- the element is written twice
      obtain ⟨o, ho, helement⟩ := ht
      have hreceiver : c.receiver? = some o.unparen := by
        rw [Cursor.receiver?, hm]
        exact Cursor.inner?_eq_some.2 ⟨o, ho, rfl⟩
      have hnone : target.comments = [] := by
        cases helement with
        | moved _ ha _ => exact hcopy _ _ hreceiver (Or.inl ha) (Or.inr hatom)
        | lookedUp _ _ _ _ => simp [elementById]
        | copied hident hinit _ ha _ _ =>
            rw [Node.comments_copy]
            exact hcopy _ _ hreceiver (Or.inr ⟨_, hinit, ha⟩) (Or.inl hident)
      have hhead : c.arguments.head?.toList.Sublist c.arguments := by
        cases c.arguments with
        | nil => exact List.Sublist.refl _
        | cons a as => simp
      have hselector := hargs hhead
      cases hsel : c.arguments.head? with
      | none => simp [rewrap, Rules.siblingsOf, hnone]
      | some a =>
          rw [hsel] at hselector
          simpa [rewrap, Rules.siblingsOf, hnone] using hselector
  | remove _ ht _ => simpa using helement ht
  | empty _ ht _ => simpa using helement ht
  | insert ht hone => simpa using hparts ht (k := [_]) (by rw [hone])
  | @visit o selector callback params ho _ hsel hone hparams =>
      have hcallback := Cursor.shaped_of_mem_walk (Cursor.shaped_of_mem_walk hc.node
        (Cursor.mem_walk_of_mem_arguments (by rw [hone]; exact List.mem_singleton.2 rfl)))
        (Cursor.unparen_mem_walk callback)
      have hselector : selector.node.comments.Sublist o.node.comments :=
        (Cursor.comments_mem_arguments (by rw [hsel]; exact List.mem_singleton.2 rfl)).trans
          (Cursor.comments_sublist (Cursor.unparen_mem_walk o))
      have hcall := Cursor.comments_methodCall hc.node hk hm ho
      rw [hone, List.flatMap_singleton] at hcall
      have hvisitor : (Rules.visitor callback callback.unparen params).comments.Sublist
          callback.node.comments := Rules.comments_visitor hcallback hparams
      have hboth := hselector.append hvisitor
      simpa [Rules.queryAll] using hboth.trans hcall
  | @each _ array callback renewed _ _ htwo hrenewed =>
      have hcallback := Cursor.shaped_of_mem_walk (Cursor.shaped_of_mem_walk hc.node
        (Cursor.mem_walk_of_mem_arguments (by rw [htwo]; simp)))
        (Cursor.unparen_mem_walk callback)
      have hrenewed : renewed.comments.Sublist callback.node.comments := by
        rcases hrenewed with rfl | ⟨index, value, hp, rfl⟩
        · exact List.Sublist.refl _
        · exact Cursor.comments_exchanging hcallback hp _
      have hboth := (List.Sublist.refl array.node.comments).append hrenewed
      have hall : (array.node.comments ++ callback.node.comments).Sublist
          c.node.comments := by
        simpa using hargs (k := [array, callback]) (by rw [htwo])
      simpa using hboth.trans hall
  | grep _ _ htwo => simpa using hargs (k := [_, _]) (by rw [htwo])
  | map _ _ htwo _ => simpa using hargs (k := [_, _]) (by rw [htwo])
  | trim _ _ hone _ => simpa using hargs (k := [_]) (by rw [hone])

theorem WrapperForm.inOrder (hc : c.Stands) (hk : c.is .callExpression = true)
    (hcopy : ∀ o a, c.receiver? = some o → o.Wraps a →
      o.is .identifier = true ∨ a.node.strip.isAny [.identifier, .thisExpr] = true →
      a.node.comments = [])
    (h : WrapperForm context c methods new) :
    new.comments.Sublist c.node.comments := by
  cases h with
  | method _ hm h => exact h.inOrder hc hk hm hcopy
  | @factory arg _ _ hargs h =>
      have harg : arg.node.comments.Sublist c.node.comments :=
        Cursor.comments_mem_arguments (by rw [hargs]; exact List.mem_singleton.2 rfl)
      cases h with
      | byId _ _ => simp [elementById]
      | byClass _ _ => simpa [Rules.queryAll] using harg
      | unwrap _ _ => exact harg
      | loaded _ _ => simpa [Rules.whenLoaded] using harg
  | inArray hcmp _ _ _ _ _ =>
      have := Cursor.not_binary_of_call hk
      rw [hcmp.kind] at this
      cases this

theorem IdiomForm.inOrder (hc : c.Stands) (hk : c.is .callExpression = true)
    (h : IdiomForm c new) : new.comments.Sublist c.node.comments := by
  cases h with
  | power _ hargs =>
      have hall := c.comments_all_arguments
      rw [hargs] at hall
      simpa using hall
  | @slice m o _ numbers kept hm _ _ ho hkept =>
      have hnumbers : (numbers.map Build.number).flatMap Node.comments = [] := by
        simp [List.flatMap_eq_nil_iff]
      have hparts := ((Cursor.comments_sublist (Cursor.unparen_mem_walk o)).append
        (hkept.flatMap (·.node.comments))).trans
          (Cursor.comments_methodCall hc.node hk hm ho)
      simpa [List.flatMap_map, hnumbers] using hparts
  | spread _ _ hargs =>
      simpa using Cursor.comments_mem_arguments (c := c)
        (by rw [hargs]; exact List.mem_singleton.2 rfl)
  | test hcmp _ _ _ _ _ _ _ _ =>
      have := Cursor.not_binary_of_call hk
      rw [hcmp.kind] at this
      cases this
  | start hcmp _ _ _ _ =>
      have := Cursor.not_binary_of_call hk
      rw [hcmp.kind] at this
      cases this

end Forms

/-- The comments in what a built-in rule writes are some of those in what
it replaces, in the same order, unless the rewrite may rearrange them. -/
theorem Rewrite.inOrder {rule : Rule} (h : rule ∈ Registry.builtin.rules)
    {context : RuleContext} {w : Workspace} (hw : w.Sound) {r : Rewrite}
    (hr : r ∈ rule.rewrites context w) (hno : ¬ r.Rearranges) :
    r.new.comments.Sublist r.site.node.comments := by
  obtain ⟨sweeps, haction, s, hs, hnew, k, v, p, hstep, -⟩ :=
    Rule.exists_step_of_mem_rewrites h hw hr
  have hstands := hstep.sound.stands hstep.mem
  have hcall : r.site.is .callExpression = true := by
    rcases List.mem_cons.1 hstep.symbol with rfl | hsymbol
    · exact hstep.kind
    · rw [List.mem_singleton.1 hsymbol] at hstep
      exact absurd (.comparison hstep.kind) hno
  have hcopy : ∀ o a, r.site.receiver? = some o → o.Wraps a →
      o.is .identifier = true ∨ a.node.strip.isAny [.identifier, .thisExpr] = true →
      a.node.comments = [] := by
    intro o a ho ha htwice
    by_contra hcomments
    exact hno (.element ho ha hcomments htwice)
  rcases hstep.form h haction hs hnew with ⟨-, names, hform⟩ | ⟨-, hform⟩
  · exact hform.inOrder hstands hcall hcopy
  · exact hform.inOrder hstands hcall

end Codemod
