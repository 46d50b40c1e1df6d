/-
Trees that are used alike.

What a tree uses does not depend on its identities, save that scopes are
told apart by them. So a tree in which the nodes that open scopes keep
their identities uses what it did, and one in which they change them
uses the same under other identities (`uses_alike`).
-/
import Codemod.Proofs.Tree.Print
import Codemod.Proofs.Rule.Usage

namespace Codemod

namespace Node

variable {n : Node}

-- ================================================================ copies

theorem copy_copy (n : Node) : n.copy.copy = n.copy := by
  induction n using Node.ind with
  | h n ih =>
      have hcs : n.children.map (copy ∘ copy) = n.children.map copy :=
        List.map_congr_left ih
      rw [copy_eq n.copy, children_copy, List.map_map, hcs, copy_eq n]

theorem isAny_copy (n : Node) (ss : List Symbol) : n.copy.isAny ss = n.isAny ss :=
  List.any_congr rfl fun s => is_copy n s

theorem map_copy_find? {q : Node → Bool} (hq : ∀ c : Node, q c.copy = q c)
    (cs : List Node) : (cs.map copy).find? q = (cs.find? q).map copy := by
  rw [List.find?_map]
  exact congrArg (fun r => Option.map copy (List.find? r cs)) (funext hq)

theorem child?_copy (n : Node) (r : Role) :
    n.copy.child? r = (n.child? r).map copy := by
  rw [child?, children_copy, map_copy_find? fun c => by rw [role_copy]]
  rfl

theorem isReference_copy (n : Node) : n.copy.isReference = n.isReference := by
  rw [isReference, strip_copy, isAny_copy]
  rfl

theorem wraps_copy (n : Node) : n.copy.wraps = n.wraps := by
  rw [wraps, strip_copy, is_copy, child?_copy, child?_copy, wraps]
  simp only [Option.any_map, Function.comp_def, is_copy, operands_copy, List.any_map,
    isReference_copy]

theorem isPlainName_copy (n : Node) : n.copy.isPlainName = n.isPlainName :=
  isAny_copy n _

theorem parameters_copy (n : Node) : n.copy.parameters = n.parameters.map copy := by
  unfold parameters
  rw [child?_copy, child?_copy]
  cases n.child? .parameter with
  | some q => rfl
  | none =>
      cases n.child? .parameters with
      | some q => exact operands_copy q
      | none => rfl

theorem declaratorIntroduces_copy (k : Holder) (n : Node) :
    declaratorIntroduces k n.copy = declaratorIntroduces k n := by
  unfold declaratorIntroduces
  rw [child?_copy, child?_copy, Option.any_map]
  cases n.child? .name with
  | none => rfl
  | some t =>
      simp only [Option.map_some, Option.toList_some, List.filter_singleton,
        isPlainName_copy, wraps_copy]
      cases t.isPlainName with
      | true => exact congrArg (fun c => [Introduction.mk c k _]) (code_copy t)
      | false => rfl

theorem loopIntroduces_copy (n : Node) : n.copy.loopIntroduces = n.loopIntroduces := by
  unfold loopIntroduces
  rw [child?_copy, child?_copy]
  cases n.child? .kind with
  | none => rfl
  | some k =>
      cases n.child? .left with
      | none => rfl
      | some l => simp [isPlainName_copy, code_copy]

/-- What a tree introduces does not depend on identities. -/
theorem introductions_copy (n : Node) : n.copy.introductions = n.introductions := by
  have hfun : n.copy.isFunction = n.isFunction := isAny_copy n _
  unfold introductions
  simp only [isAny_copy, is_copy, hfun, loopIntroduces_copy, parameters_copy,
    children_copy, child?_copy]
  rw [map_copy_filter fun c => is_copy c _, map_copy_filter fun c => is_copy c _]
  simp only [List.flatMap_map, declaratorIntroduces_copy, List.map_map,
    Function.comp_def, code_copy]
  cases n.child? .parameter with
  | none => rfl
  | some q =>
      simp only [Option.map_some, Option.toList_some, List.filter_singleton, is_copy]
      cases q.is .identifier with
      | true => simp [code_copy]
      | false => rfl

theorem length_walk_copy (n : Node) : n.copy.walk.length = n.walk.length := by
  induction n using Node.ind with
  | h n ih =>
      rw [walk_eq, walk_eq n, children_copy, List.length_cons, List.length_cons,
        List.flatMap_map, List.length_flatMap, List.length_flatMap,
        List.map_congr_left ih]

end Node

-- ================================================================= alike

namespace Head

/-- The node can open a scope. -/
def isScope (h : Head) : Bool :=
  h.isWide || h.is .statementBlock || h.isAny blockScopeSymbols

end Head

/-- The node can be a scope around something. -/
def Node.holdsScope (n : Node) : Bool := n.head.isScope && !n.children.isEmpty

/-- The trees are the same but for identities, and those of the nodes that
can be scopes are related. -/
inductive Node.Alike (J : Option Nat → Option Nat → Prop) : Node → Node → Prop
  | mk {n m : Node} : m.copy = n.copy → (n.holdsScope = true → J n.id m.id) →
    List.Forall₂ (Alike J) n.children m.children → Alike J n m

/-- The same scope under related identities. -/
structure Frame.Alike (J : Option Nat → Option Nat → Prop) (a b : Frame) : Prop where
  id : J a.id b.id
  isWide : b.isWide = a.isWide

/-- The same place, at the depth `e` instead of `d`, in scopes under related
identities. -/
structure Place.Alike (J : Option Nat → Option Nat → Prop) (d e : Nat)
    (p q : Place) : Prop where
  standing : q.standing = p.standing
  depth : ∃ k, p.depth = d + k ∧ q.depth = e + k
  frames : List.Forall₂ (Frame.Alike J) p.frames q.frames

/-- The same use, at the depth `e` instead of `d`, in scopes under related
identities. -/
inductive Use.Alike (J : Option Nat → Option Nat → Prop) (d e : Nat) :
    Use → Use → Prop
  | method (t : Text) : Alike J d e (.method t) (.method t)
  | recalled : Alike J d e .recalled .recalled
  | called (t : Text) (k : Nat) : Alike J d e (.called t (d + k)) (.called t (e + k))
  | tagged : Alike J d e .tagged .tagged
  | argument : Alike J d e .argument .argument
  | receiver {fs gs : List Frame} (t : Text) : List.Forall₂ (Frame.Alike J) fs gs →
    Alike J d e (.receiver fs t) (.receiver gs t)
  | declares {i j : Option Nat} (t : Text) (b : Bool) : J i j →
    Alike J d e (.declares t i b) (.declares t j b)

theorem Frame.eq_of_alike {fs gs : List Frame}
    (h : List.Forall₂ (Frame.Alike Eq) fs gs) : gs = fs := by
  induction h with
  | nil => rfl
  | @cons a b _ _ hab _ ih =>
      obtain ⟨i, w⟩ := a
      obtain ⟨j, v⟩ := b
      obtain ⟨hid, hwide⟩ := hab
      simp only at hid hwide
      rw [ih, hid, hwide]

section Alike

variable {J : Option Nat → Option Nat → Prop} {d e : Nat} {p q : Place}
  {n m : Node}

theorem Node.Alike.copy (h : n.Alike J m) : m.copy = n.copy := by
  cases h with
  | mk hcopy _ _ => exact hcopy

theorem Node.Alike.head (h : n.Alike J m) : m.head.bare = n.head.bare := by
  have hcopy := h.copy
  rw [copy_eq, copy_eq n, Node.mk.injEq] at hcopy
  obtain ⟨-, hk, hb, -, -, ht, -, hz⟩ := hcopy
  simp [Node.head, Head.bare, hk, hb, ht, hz]

theorem Head.eq_of_bare {h k : Head} (hb : k.bare = h.bare) :
    k.kind = h.kind ∧ k.named = h.named ∧ k.word = h.word := by
  simpa [Head.bare] using hb

/-- What does not look at identities sees no difference. -/
theorem Head.is_of_bare {h k : Head} (hb : k.bare = h.bare) (s : Symbol) :
    k.is s = h.is s := by
  rw [Head.is, Head.is, (eq_of_bare hb).1]

theorem Head.isAny_of_bare {h k : Head} (hb : k.bare = h.bare) (ss : List Symbol) :
    k.isAny ss = h.isAny ss :=
  List.any_congr rfl fun s => is_of_bare hb s

theorem Place.Alike.use (hp : p.Alike J d e q) {h k : Head} (hb : k.bare = h.bare) :
    List.Forall₂ (Use.Alike J d e) (p.use h) (q.use k) := by
  have his := Head.is_of_bare hb
  obtain ⟨-, hnamed, hword⟩ := Head.eq_of_bare hb
  have hop : k.isOperand = h.isOperand := by
    rw [Head.isOperand, Head.isOperand, his, hnamed]
  obtain ⟨i, hd, he⟩ := hp.depth
  unfold Place.use
  rw [hp.standing, hop]
  split
  · exact .nil
  unfold Place.useOutside
  rw [hp.standing]
  simp only [his, hword, hop]
  split
  · split
    · exact .cons (.method _) .nil
    · exact .nil
  · split
    · exact .cons .recalled .nil
    · split
      · rw [hd, he]
        exact .cons (.called _ i) .nil
      · exact .nil
  · split
    · exact .cons (.receiver _ hp.frames) .nil
    · exact .nil
  · split
    · exact .cons .tagged .nil
    · exact .nil
  · split
    · exact .cons .argument .nil
    · exact .nil
  · exact .nil

theorem Place.Alike.framesBelow (hp : p.Alike J d e q) {h k : Head}
    (hb : k.bare = h.bare) (hid : h.isScope = true → J h.id k.id) :
    List.Forall₂ (Frame.Alike J) (p.framesBelow h) (q.framesBelow k) := by
  have hwide : k.isWide = h.isWide := by
    rw [Head.isWide, Head.isWide, Head.isFunction, Head.isFunction,
      Head.is_of_bare hb, Head.isAny_of_bare hb]
  have hopens : q.opens k = p.opens h := by
    rw [Place.opens, Place.opens, hwide, hp.standing, Head.is_of_bare hb,
      Head.isAny_of_bare hb]
  unfold Place.framesBelow
  rw [hopens]
  split
  · next ho =>
      refine .cons ⟨hid ?_, hwide⟩ hp.frames
      simp only [Place.opens, Bool.or_eq_true, Bool.and_eq_true] at ho
      simp only [Head.isScope, Bool.or_eq_true]
      exact ho.imp_left (Or.imp_right And.left)
  · exact hp.frames

theorem Place.Alike.below (hp : p.Alike J d e q) {h k : Head} (hb : k.bare = h.bare)
    (hid : h.isScope = true → J h.id k.id) (r : Option Role) :
    (p.below h r).Alike J d e (q.below k r) := by
  have his := Head.is_of_bare hb
  have hfun : k.isFunction = h.isFunction := Head.isAny_of_bare hb _
  obtain ⟨i, hd, he⟩ := hp.depth
  have hsame : ∀ s, (Place.mk s p.depth p.frames).Alike J d e ⟨s, q.depth, q.frames⟩ :=
    fun s => ⟨rfl, ⟨i, hd, he⟩, hp.frames⟩
  have hdeeper : ∀ s, (Place.mk s (p.depth + 1) p.frames).Alike J d e
      ⟨s, q.depth + 1, q.frames⟩ := fun s =>
    ⟨rfl, ⟨i + 1, by simp only [hd]; omega, by simp only [he]; omega⟩, hp.frames⟩
  unfold Place.below
  rw [hp.standing]
  simp only [his, hfun]
  split
  · split <;> exact hsame _
  · split
    · split
      · exact hdeeper _
      · exact hsame _
      · exact hsame _
    · split
      · exact hsame _
      · split
        · exact hdeeper _
        · exact ⟨rfl, ⟨i, hd, he⟩, hp.framesBelow hb hid⟩

theorem Place.Alike.scopes (hp : p.Alike J d e q) {i j : Option Nat} {k : Holder}
    (hid : k = .self → J i j) : List.Forall₂ J (p.scopes i k) (q.scopes j k) := by
  have hframes := hp.frames
  unfold Place.scopes
  generalize p.frames = fs, q.frames = gs at hframes ⊢
  cases k with
  | self => exact .cons (hid rfl) .nil
  | near =>
      cases hframes with
      | nil => exact .nil
      | cons hab _ => exact .cons hab.id .nil
  | wide =>
      induction hframes with
      | nil => exact .nil
      | @cons a b _ _ hab _ ih =>
          simp only [List.find?_cons, hab.isWide]
          cases a.isWide with
          | true => exact .cons hab.id .nil
          | false => exact ih

theorem Node.holdsScope_of_ne_nil (hs : n.head.isScope = true) (h : n.children ≠ []) :
    n.holdsScope = true := by
  rw [holdsScope, hs, Bool.true_and, Bool.not_eq_true', List.isEmpty_eq_false_iff]
  exact h

/-- Only what opens a scope holds a name itself. -/
theorem Node.holdsScope_of_mem_introductions {x : Introduction}
    (hx : x ∈ n.introductions) (hself : x.holder = .self) : n.holdsScope = true := by
  refine holdsScope_of_ne_nil ?_ fun hnil => by
    rw [introductions_children_nil hnil] at hx
    cases hx
  unfold introductions at hx
  split at hx
  · -- variables belong to what is around them
    obtain ⟨c, -, hx⟩ := List.mem_flatMap.1 hx
    obtain ⟨t, -, rfl⟩ := List.mem_map.1 hx
    simp only at hself
    split at hself <;> cases hself
  · split at hx
    · next hk =>
        have hfun : n.head.isFunction = true := hk
        simp [Head.isScope, Head.isWide, hfun]
    · split at hx
      · next hk =>
          have hany : n.head.isAny blockScopeSymbols = true :=
            isAny_iff.2 ⟨.catchClause, by decide, is_iff.1 hk⟩
          simp [Head.isScope, hany]
      · split at hx
        · next hk =>
            have hany : n.head.isAny blockScopeSymbols = true :=
              isAny_iff.2 ⟨.forInStatement, by decide, is_iff.1 hk⟩
            simp [Head.isScope, hany]
        · cases hx

theorem Place.Alike.declared (hp : p.Alike J d e q) (h : n.Alike J m) :
    List.Forall₂ (Use.Alike J d e) (p.declared n) (q.declared m) := by
  have hintro : m.introductions = n.introductions := by
    rw [← Node.introductions_copy, h.copy, Node.introductions_copy]
  have hid : n.holdsScope = true → J n.id m.id := by
    cases h with
    | mk _ hs _ => exact hs
  unfold Place.declared
  rw [hintro]
  have hall : ∀ x ∈ n.introductions, x.holder = .self → n.holdsScope = true :=
    fun x => Node.holdsScope_of_mem_introductions
  generalize n.introductions = xs at hall ⊢
  induction xs with
  | nil => exact .nil
  | cons x xs ih =>
      rw [List.forall_mem_cons] at hall
      refine List.rel_append ?_ (ih hall.2)
      have hscopes := hp.scopes (k := x.holder) fun hk => hid (hall.1 hk)
      rw [List.forall₂_map_left_iff, List.forall₂_map_right_iff]
      exact hscopes.imp fun i j hij => .declares _ _ hij

/-- Trees that are the same but for identities use the same. -/
theorem Node.uses_alike (hp : p.Alike J d e q) (h : n.Alike J m) :
    List.Forall₂ (Use.Alike J d e) (n.uses p) (m.uses q) := by
  induction n using Node.ind generalizing m p q with
  | h n ih =>
      have hhead := h.head
      have hdeclared := hp.declared h
      cases h with
      | mk hcopy hs hcs =>
          rw [uses_eq, uses_eq q m]
          refine List.rel_append ?_ (List.rel_append (hp.use hhead) hdeclared)
          have hrole : ∀ c c' : Node, c.Alike J c' → c'.role = c.role := fun c c' hc => by
            rw [← role_copy c', hc.copy, role_copy]
          have hbelow : ∀ c ∈ n.children, ∀ c', c.Alike J c' →
              List.Forall₂ (Use.Alike J d e) (c.uses (p.below n.head c.role))
                (c'.uses (q.below m.head c'.role)) := by
            intro c hc c' halike
            have hid : n.head.isScope = true → J n.id m.id := fun hscope =>
              hs (holdsScope_of_ne_nil hscope (List.ne_nil_of_mem hc))
            rw [hrole c c' halike]
            exact ih c hc (hp.below hhead hid c.role) halike
          generalize n.children = cs, m.children = ds at hcs hbelow ⊢
          induction hcs with
          | nil => exact .nil
          | cons hc _ ihcs =>
              rw [List.forall_mem_cons] at hbelow
              exact List.rel_append (hbelow.1 _ hc) (ihcs hbelow.2)

-- ======================================================= which are alike

theorem Node.alike_refl (hJ : ∀ i, J i i) (n : Node) : n.Alike J n := by
  induction n using Node.ind with
  | h n ih => exact .mk rfl (fun _ => hJ n.id) (List.forall₂_same.2 ih)

/-- What is numbered is as it was where the nodes that can be scopes have
their numbers. -/
theorem Node.alike_number (hJ : ∀ i, J i i)
    (h : ∀ m ∈ n.walk, m.holdsScope = true → m.id.isSome) (k : Nat) :
    n.Alike J (n.number k).1 := by
  induction n using Node.ind generalizing k with
  | h n ih =>
      refine .mk (copy_number k n) (fun hs => ?_) ?_
      · obtain ⟨i, hi⟩ := Option.isSome_iff_exists.1 (h n (self_mem_walk n) hs)
        rw [number_eq, ownNumber, hi]
        exact hJ _
      · rw [number_eq]
        simp only
        generalize (n.ownNumber k).2 = k'
        have hbelow : ∀ c ∈ n.children, ∀ k, c.Alike J (c.number k).1 := fun c hc k =>
          ih c hc (fun m hm => h m (mem_walk_of_child hc hm)) k
        generalize n.children = cs at hbelow
        induction cs generalizing k' with
        | nil => exact .nil
        | cons c cs ihcs =>
            rw [List.forall_mem_cons] at hbelow
            rw [numberAll_cons]
            exact .cons (hbelow.1 k') (ihcs _ hbelow.2)

theorem Node.length_walk_of_copy {n m : Node} (h : m.copy = n.copy) :
    m.walk.length = n.walk.length := by
  rw [← length_walk_copy m, h, length_walk_copy]

/-- Trees that are the same but for identities are alike under the relation
of the identities at the same places. -/
theorem Node.alike_of_copy (hcopy : m.copy = n.copy)
    (h : ∀ x ∈ n.walk.zip m.walk, x.1.holdsScope = true → J x.1.id x.2.id) :
    n.Alike J m := by
  induction n using Node.ind generalizing m with
  | h n ih =>
      have hcs : m.children.map copy = n.children.map copy := by
        rw [← children_copy, hcopy, children_copy]
      rw [walk_eq, walk_eq m, List.zip_cons_cons, List.forall_mem_cons] at h
      refine .mk hcopy h.1 ?_
      have hbelow := h.2
      clear h
      generalize n.children = cs, m.children = ds at ih hcs hbelow
      induction cs generalizing ds with
      | nil =>
          rw [List.map_nil, List.map_eq_nil_iff] at hcs
          rw [hcs]
          exact .nil
      | cons c cs ihcs =>
          obtain ⟨d, ds, rfl, hd, hds⟩ := List.map_eq_cons_iff.1 hcs
          rw [List.flatMap_cons, List.flatMap_cons,
            List.zip_append (length_walk_of_copy hd).symm] at hbelow
          rw [List.forall_mem_cons] at ih
          exact .cons (ih.1 hd fun x hx => hbelow x (List.mem_append_left _ hx))
            (ihcs ds ih.2 hds fun x hx => hbelow x (List.mem_append_right _ hx))

end Alike

end Codemod
