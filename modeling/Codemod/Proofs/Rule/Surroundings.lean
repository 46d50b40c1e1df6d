/-
What is declared around a rewrite.

A node introduces names by what it finds among its children, and a call is
none of the things that it looks for. So when a call is replaced by what
wraps no name, the nodes around it introduce what they did, save that an
initializer can cease to wrap a name (`Calm.introductions`). This holds of
any replacement inside a member access (`Inside`), and it is preserved on
the way up (`Calm.set`), so that the whole program declares around the
replacement what it did (`Step.uses_after`).
-/
import Codemod.Proofs.Rule.Scopes

namespace Codemod

open Node

/-- The same, save that the one may cease to wrap a name. -/
structure Introduction.Weaker (x y : Introduction) : Prop where
  name : x.name = y.name
  holder : x.holder = y.holder
  wraps : x.wraps = true → y.wraps = true

/-- The same, save that the one may cease to declare a wrapper. -/
inductive Use.Weaker : Use → Use → Prop where
  | refl (u : Use) : Weaker u u
  | declares (t : Text) (i : Option Nat) {a b : Bool} : (a = true → b = true) →
    Weaker (.declares t i a) (.declares t i b)

theorem Introduction.Weaker.refl (x : Introduction) : x.Weaker x := ⟨rfl, rfl, id⟩

theorem forall₂_weaker_refl (xs : List Introduction) :
    List.Forall₂ Introduction.Weaker xs xs :=
  List.forall₂_same.2 fun x _ => .refl x

-- ============================================================ one exchanged

namespace Node

/-- The nodes are the same, or the one has come for the other. -/
def Exchanged (r n a b : Node) : Prop := a = b ∨ (a = r ∧ b = n)

variable {r n p : Node} {i : Nat} {cs ds : List Node} {q : Node → Bool}

theorem forall₂_set (h : cs[i]? = some n) :
    List.Forall₂ (Exchanged r n) (cs.set i r) cs := by
  induction cs generalizing i with
  | nil => cases h
  | cons c cs ih =>
      cases i with
      | zero =>
          obtain rfl := Option.some.inj h
          exact .cons (Or.inr ⟨rfl, rfl⟩) (List.forall₂_same.2 fun _ _ => Or.inl rfl)
      | succ i => exact .cons (Or.inl rfl) (ih h)

theorem Exchanged.test {a b : Node} (h : Exchanged r n a b) (hq : q r = q n) :
    q a = q b := by
  rcases h with rfl | ⟨rfl, rfl⟩
  · rfl
  · exact hq

theorem filter_exchanged (h : List.Forall₂ (Exchanged r n) cs ds) (hq : q r = q n) :
    List.Forall₂ (fun a b => Exchanged r n a b ∧ q a = true) (cs.filter q)
      (ds.filter q) := by
  induction h with
  | nil => exact .nil
  | cons hab _ ih =>
      rw [List.filter_cons, List.filter_cons, ← hab.test hq]
      split
      · next ha => exact .cons ⟨hab, ha⟩ ih
      · exact ih

theorem find?_exchanged (h : List.Forall₂ (Exchanged r n) cs ds) (hq : q r = q n) :
    cs.find? q = ds.find? q ∨ (cs.find? q = some r ∧ ds.find? q = some n) := by
  induction h with
  | nil => exact Or.inl rfl
  | @cons a b _ _ hab _ ih =>
      rw [List.find?_cons, List.find?_cons, ← hab.test hq]
      cases q a with
      | false => exact ih
      | true =>
          rcases hab with rfl | ⟨rfl, rfl⟩
          · exact Or.inl rfl
          · exact Or.inr ⟨rfl, rfl⟩

theorem filter_eq_of_exchanged (h : List.Forall₂ (Exchanged r n) cs ds)
    (hr : q r = false) (hn : q n = false) : cs.filter q = ds.filter q := by
  induction h with
  | nil => rfl
  | @cons a b _ _ hab _ ih =>
      rw [List.filter_cons, List.filter_cons, ih]
      rcases hab with rfl | ⟨rfl, rfl⟩
      · rfl
      · rw [hr, hn, if_neg Bool.false_ne_true, if_neg Bool.false_ne_true]

theorem any_exchanged (h : List.Forall₂ (Exchanged r n) cs ds)
    (hq : q r = true → q n = true) (hcs : cs.any q = true) : ds.any q = true := by
  induction h with
  | nil => cases hcs
  | @cons a b _ _ hab _ ih =>
      rw [List.any_cons, Bool.or_eq_true] at hcs ⊢
      refine hcs.imp (fun ha => ?_) ih
      rcases hab with rfl | ⟨rfl, rfl⟩
      · exact ha
      · exact hq ha

/-- The node with another child in the place of one. -/
def exchange (p : Node) (i : Nat) (r : Node) : Node :=
  { p with children := p.children.set i r }

theorem child?_exchange (hi : p.children[i]? = some n) (hrole : r.role = n.role)
    (s : Role) : (p.exchange i r).child? s = p.child? s
      ∨ ((p.exchange i r).child? s = some r ∧ p.child? s = some n) :=
  find?_exchanged (forall₂_set hi) (by rw [hrole])

theorem role_of_child? {s : Role} {c : Node} (h : p.child? s = some c) :
    c.role = some s := by
  simpa using List.find?_some h

-- ==================================================================== calm

/-- The kinds of node that their parents look into for names. -/
def readSymbols : List Symbol := [.variableDeclarator, .formalParameters, .arguments]

/-- To what is around them the one node introduces no more than the
other. -/
structure Calm (r n : Node) : Prop where
  role : r.role = n.role
  operand : r.isOperand = true ∧ n.isOperand = true
  held : n.children ≠ []
  plain : r.isPlainName = false ∧ n.isPlainName = false
  wraps : r.wraps = true → n.wraps = true
  reference : r.isReference = true → n.isReference = true
  kinds : ∀ s ∈ readSymbols, r.is s = n.is s
  declarator : r.is .variableDeclarator = true → ∀ k, List.Forall₂ Introduction.Weaker
    (declaratorIntroduces k r) (declaratorIntroduces k n)
  formals : r.is .formalParameters = true →
    r.operands.filter (·.is .identifier) = n.operands.filter (·.is .identifier)
  holds : r.is .arguments = true → r.operands.any isReference = true →
    n.operands.any isReference = true

theorem not_identifier_of_isPlainName (h : n.isPlainName = false) :
    n.is .identifier = false := by
  rw [isPlainName, Bool.eq_false_iff] at h
  rw [Bool.eq_false_iff]
  exact fun hk => h (isAny_iff.2 ⟨.identifier, by decide, is_iff.1 hk⟩)

theorem not_plain_of_children (hf : n.Formed) (h : n.children ≠ []) :
    n.isPlainName = false ∧ n.is .thisExpr = false := by
  have hatom : ∀ s ∈ atomSymbols, n.is s = false := by
    intro s hs
    rw [Bool.eq_false_iff]
    intro hk
    refine h (hf.plain ?_)
    rw [isAtom, Bool.or_eq_true]
    exact Or.inr (isAny_iff.2 ⟨s, hs, is_iff.1 hk⟩)
  refine ⟨?_, hatom _ (by decide)⟩
  rw [isPlainName, isAny, List.any_cons, List.any_cons, hatom _ (by decide),
    hatom _ (by decide)]
  rfl

/-- A node that is no call and no name wraps nothing and is no reference. -/
theorem wraps_of_strip (h : n.strip.is .callExpression = false) : n.wraps = false := by
  rw [Node.wraps, h]
  rfl

/-- The kinds of node that matter to what is around them. -/
def stirringSymbols : List Symbol :=
  .callExpression :: .parenthesizedExpression :: .identifier :: .thisExpr
    :: .shorthandPropertyIdentifierPattern :: readSymbols

/-- Nodes of most kinds introduce nothing to what is around them. -/
theorem calm_of_kind {s : Symbol} (hr : r.is s = true) (hn : n.is s = true)
    (hs : s ∉ stirringSymbols) (hrole : r.role = n.role)
    (hop : r.isOperand = true ∧ n.isOperand = true) (hheld : n.children ≠ []) :
    Calm r n := by
  have hrne : ∀ t ∈ stirringSymbols, r.is t = false := fun t ht =>
    is_false_of_kind (is_iff.1 hr) fun heq => hs (heq ▸ ht)
  have hnne : ∀ t ∈ stirringSymbols, n.is t = false := fun t ht =>
    is_false_of_kind (is_iff.1 hn) fun heq => hs (heq ▸ ht)
  have hstrip : r.strip = r := strip_of_no_operand fun h => by
    rw [hrne _ (by decide)] at h
    cases h
  have hplain : ∀ {m : Node}, (∀ t ∈ stirringSymbols, m.is t = false) →
      m.isPlainName = false := fun h => by
    rw [isPlainName, isAny, List.any_cons, List.any_cons, h _ (by decide),
      h _ (by decide)]
    rfl
  have hno : ∀ {t}, t ∈ stirringSymbols → r.is t = true → False := fun ht h => by
    rw [hrne _ ht] at h
    cases h
  refine ⟨hrole, hop, hheld, ⟨hplain hrne, hplain hnne⟩, fun h => ?_, fun h => ?_,
    fun t ht => ?_, fun h => (hno (by decide) h).elim, fun h => (hno (by decide) h).elim,
    fun h => (hno (by decide) h).elim⟩
  · rw [wraps_of_strip (by rw [hstrip]; exact hrne _ (by decide))] at h
    cases h
  · rw [isReference, hstrip, isAny, List.any_cons, List.any_cons, hrne _ (by decide),
      hrne _ (by decide)] at h
    cases h
  · have hmem : ∀ t ∈ readSymbols, t ∈ stirringSymbols := by decide
    rw [hrne t (hmem t ht), hnne t (hmem t ht)]

/-- Neither does what takes the place of a call and wraps no name. -/
theorem calm_of_call {s : Symbol} (hr : r.is s = true)
    (hs : s ∈ [Symbol.callExpression, .parenthesizedExpression])
    (hn : n.is .callExpression = true) (hrole : r.role = n.role)
    (hop : r.isOperand = true ∧ n.isOperand = true) (hheld : n.children ≠ [])
    (hw : r.wraps = false) (href : r.isReference = false) : Calm r n := by
  have hdisjoint : ∀ s ∈ [Symbol.callExpression, .parenthesizedExpression],
      s ∉ [Symbol.identifier, .shorthandPropertyIdentifierPattern]
        ∧ ∀ t ∈ readSymbols, s ≠ t := by decide
  have hrne : ∀ t ∈ readSymbols, r.is t = false := fun t ht =>
    is_false_of_kind (is_iff.1 hr) ((hdisjoint s hs).2 t ht)
  have hnne : ∀ t ∈ readSymbols, n.is t = false := fun t ht =>
    is_false_of_kind (is_iff.1 hn) ((hdisjoint _ (by decide)).2 t ht)
  have hno : ∀ {t}, t ∈ readSymbols → r.is t = true → False := fun ht h => by
    rw [hrne _ ht] at h
    cases h
  refine ⟨hrole, hop, hheld, ⟨isAny_false_of_kind hr (hdisjoint s hs).1,
    isAny_false_of_kind hn (by decide)⟩, fun h => ?_, fun h => ?_, fun t ht => ?_,
    fun h => (hno (by decide) h).elim, fun h => (hno (by decide) h).elim,
    fun h => (hno (by decide) h).elim⟩
  · rw [hw] at h
    cases h
  · rw [href] at h
    cases h
  · rw [hrne t ht, hnne t ht]

section Around

variable (h : Calm r n) (hf : p.Formed) (hi : p.children[i]? = some n)
include h hi

theorem Calm.operands_exchange :
    List.Forall₂ (fun a b => Exchanged r n a b ∧ a.isOperand = true)
      (p.exchange i r).operands p.operands :=
  filter_exchanged (forall₂_set hi) (h.operand.1.trans h.operand.2.symm)

/-- Around what is calm a declarator introduces no more. -/
theorem Calm.declaratorIntroduces_exchange (k : Holder) :
    List.Forall₂ Introduction.Weaker (declaratorIntroduces k (p.exchange i r))
      (declaratorIntroduces k p) := by
  have hweaker : ((p.exchange i r).child? .value).any Node.wraps = true →
      (p.child? .value).any Node.wraps = true := by
    rcases child?_exchange hi h.role .value with heq | ⟨hr, hn⟩
    · rw [heq]
      exact fun hv => hv
    · rw [hr, hn]
      exact h.wraps
  unfold declaratorIntroduces
  rcases child?_exchange hi h.role .name with heq | ⟨hr, hn⟩
  · rw [heq]
    generalize ((p.child? .name).toList.filter isPlainName) = ts
    rw [List.forall₂_map_left_iff, List.forall₂_map_right_iff]
    exact List.forall₂_same.2 fun t _ => ⟨rfl, rfl, hweaker⟩
  · rw [hr, hn]
    simp only [Option.toList_some, List.filter_singleton, h.plain.1, h.plain.2]
    exact .nil

include hf

/-- A node around what is calm is calm. -/
theorem Calm.set : Calm (p.exchange i r) p := by
  have hmem : n ∈ p.children := List.mem_of_getElem? hi
  have hheld : p.children ≠ [] := List.ne_nil_of_mem hmem
  have hop : p.isOperand = true := isOperand_of_mem hf hmem
  obtain ⟨hplain, hthis⟩ := not_plain_of_children hf hheld
  have hident := not_identifier_of_isPlainName hplain
  -- in parentheses around it the part is what it was
  have hstrip : ((p.exchange i r).strip = p.exchange i r ∧ p.strip = p)
      ∨ ∃ a b, Exchanged r n a b ∧ (p.exchange i r).strip = a.strip
        ∧ p.strip = b.strip := by
    by_cases hk : p.is .parenthesizedExpression = true
    · have hk' : (p.exchange i r).is .parenthesizedExpression = true := hk
      have hops := h.operands_exchange hi
      generalize hcs : (p.exchange i r).operands = cs, hds : p.operands = ds at hops
      cases hops with
      | nil =>
          exact Or.inl ⟨strip_of_no_operand fun _ d => by rw [hcs]; exact nofun,
            strip_of_no_operand fun _ d => by rw [hds]; exact nofun⟩
      | @cons a b cs ds hab hops =>
          cases hops with
          | nil => exact Or.inr ⟨a, b, hab.1, strip_of_operands hk' hcs,
              strip_of_operands hk hds⟩
          | cons _ _ =>
              exact Or.inl ⟨strip_of_no_operand fun _ d => by rw [hcs]; exact nofun,
                strip_of_no_operand fun _ d => by rw [hds]; exact nofun⟩
    · exact Or.inl ⟨strip_of_no_operand fun hk' => absurd hk' hk,
        strip_of_no_operand fun hk' => absurd hk' hk⟩
  refine ⟨rfl, ⟨hop, hop⟩, hheld, ⟨hplain, hplain⟩, fun hw => ?_, fun href => ?_,
    fun _ _ => rfl, fun _ k => h.declaratorIntroduces_exchange hi k, fun _ => ?_,
    fun _ => ?_⟩
  · rcases hstrip with ⟨hr, hn⟩ | ⟨a, b, hab, hr, hn⟩
    · rw [Node.wraps, hr, Bool.and_eq_true, Bool.and_eq_true] at hw
      rw [Node.wraps, hn, Bool.and_eq_true, Bool.and_eq_true]
      obtain ⟨⟨hk, hcallee⟩, hargs⟩ := hw
      refine ⟨⟨hk, ?_⟩, ?_⟩
      · rcases child?_exchange hi h.role .function with heq | ⟨hr, -⟩
        · rwa [heq] at hcallee
        · rw [hr, Option.any_some, not_identifier_of_isPlainName h.plain.1] at hcallee
          cases hcallee
      · rcases child?_exchange hi h.role .arguments with heq | ⟨hr, hn⟩
        · rwa [heq] at hargs
        · rw [hr, Option.any_some, Bool.and_eq_true] at hargs
          rw [hn, Option.any_some, Bool.and_eq_true, ← h.kinds _ (by decide)]
          exact ⟨hargs.1, h.holds hargs.1 hargs.2⟩
    · have hwa : a.wraps = true := by rwa [Node.wraps, hr] at hw
      rw [Node.wraps, hn]
      rcases hab with rfl | ⟨rfl, rfl⟩
      · exact hwa
      · exact h.wraps hwa
  · rcases hstrip with ⟨hr, -⟩ | ⟨a, b, hab, hr, hn⟩
    · rw [isReference, hr, isAny, List.any_cons, List.any_cons,
        show (p.exchange i r).is .identifier = false from hident,
        show (p.exchange i r).is .thisExpr = false from hthis] at href
      cases href
    · have hra : a.isReference = true := by rwa [isReference, hr] at href
      rw [isReference, hn]
      rcases hab with rfl | ⟨rfl, rfl⟩
      · exact hra
      · exact h.reference hra
  · refine filter_eq_of_exchanged ((h.operands_exchange hi).imp fun _ _ hab => hab.1) ?_ ?_
    · exact not_identifier_of_isPlainName h.plain.1
    · exact not_identifier_of_isPlainName h.plain.2
  · exact any_exchanged ((h.operands_exchange hi).imp fun _ _ hab => hab.1) h.reference

/-- Parameters that are plain names are not touched. -/
theorem Calm.parameters_exchange :
    (p.exchange i r).parameters.filter (·.is .identifier)
      = p.parameters.filter (·.is .identifier) := by
  have hr := not_identifier_of_isPlainName h.plain.1
  have hn := not_identifier_of_isPlainName h.plain.2
  unfold parameters
  rcases child?_exchange hi h.role .parameter with heq | ⟨hr', hn'⟩
  · rw [heq]
    cases p.child? .parameter with
    | some q => rfl
    | none =>
        rcases child?_exchange hi h.role .parameters with heq | ⟨hr', hn'⟩
        · rw [heq]
        · rw [hr', hn']
          refine h.formals ?_
          rw [h.kinds _ (by decide)]
          refine hf.inPlace n (List.mem_of_getElem? hi) (·.is .formalParameters) ?_
          rw [role_of_child? hn']
          rfl
  · simp [hr', hn', hr, hn]

/-- Around what is calm a node introduces no more. -/
theorem Calm.introductions : List.Forall₂ Introduction.Weaker
    (p.exchange i r).introductions p.introductions := by
  have hkinds : ∀ ss, (p.exchange i r).isAny ss = p.isAny ss := fun _ => rfl
  have hkind : ∀ s, (p.exchange i r).is s = p.is s := fun _ => rfl
  have hfun : (p.exchange i r).isFunction = p.isFunction := rfl
  unfold Node.introductions
  rw [hkinds, hkind, hkind, hkind, hfun]
  split
  · -- of the declarators one can introduce less
    refine List.rel_flatMap (filter_exchanged (forall₂_set hi) (h.kinds _ (by decide)))
      fun a b hab => ?_
    rcases hab with ⟨rfl | ⟨rfl, rfl⟩, hk⟩
    · exact forall₂_weaker_refl _
    · exact h.declarator hk _
  · split
    · rw [h.parameters_exchange hf hi]
      exact forall₂_weaker_refl _
    · split
      · rcases child?_exchange hi h.role .parameter with heq | ⟨hr, hn⟩
        · rw [heq]
          exact forall₂_weaker_refl _
        · simp only [hr, hn, Option.toList_some, List.filter_singleton,
            not_identifier_of_isPlainName h.plain.1, not_identifier_of_isPlainName h.plain.2]
          exact .nil
      · split
        · unfold loopIntroduces
          rcases child?_exchange hi h.role .kind with hword | ⟨hr, hn⟩
          · rw [hword]
            rcases child?_exchange hi h.role .left with heq | ⟨hr, hn⟩
            · rw [heq]
              exact forall₂_weaker_refl _
            · rw [hr, hn]
              cases p.child? .kind with
              | none => exact .nil
              | some k =>
                  simp only [h.plain.1, h.plain.2, Bool.false_eq_true, if_false]
                  exact .nil
          · have hmute : n.isMute = true := by
              refine hf.inPlace n (List.mem_of_getElem? hi) _ ?_
              rw [role_of_child? hn]
              rfl
            rw [isMute, Bool.and_eq_true, List.isEmpty_iff] at hmute
            exact absurd hmute.1 h.held
        · exact .nil

end Around

-- ================================================================== inside

/-- The place is, parentheses apart, a part of a member access. -/
inductive Inside : List (Node × Nat) → Prop where
  | member {p : Node} {i : Nat} {up : List (Node × Nat)} :
    p.is .memberExpression = true → Inside ((p, i) :: up)
  | within {p : Node} {i : Nat} {up : List (Node × Nat)} :
    p.is .parenthesizedExpression = true → Inside up → Inside ((p, i) :: up)

/-- In these places the one node introduces no more to what is around it
than the other. -/
structure FitsCalmly (above : List (Node × Nat)) (r n : Node) : Prop where
  formed : ∀ q ∈ above, q.1.Formed
  calm : Calm r n ∨ Inside above

variable {up : List (Node × Nat)}

theorem FitsCalmly.set (h : FitsCalmly ((p, i) :: up) r n)
    (hi : p.children[i]? = some n) : FitsCalmly up (p.exchange i r) p := by
  obtain ⟨hformed, hcalm⟩ := h
  rw [List.forall_mem_cons] at hformed
  have hmem : n ∈ p.children := List.mem_of_getElem? hi
  refine ⟨hformed.2, ?_⟩
  rcases hcalm with hcalm | hinside
  · exact Or.inl (hcalm.set hformed.1 hi)
  · cases hinside with
    | member hk =>
        have hop := isOperand_of_mem hformed.1 hmem
        exact Or.inl (calm_of_kind hk hk (by decide) rfl ⟨hop, hop⟩
          (List.ne_nil_of_mem hmem))
    | within _ hup => exact Or.inr hup

theorem FitsCalmly.introductions (h : FitsCalmly ((p, i) :: up) r n)
    (hi : p.children[i]? = some n) : List.Forall₂ Introduction.Weaker
      (p.exchange i r).introductions p.introductions := by
  obtain ⟨hformed, hcalm⟩ := h
  have hquiet : ∀ {s}, p.is s = true → s ∉ introducingSymbols →
      List.Forall₂ Introduction.Weaker (p.exchange i r).introductions p.introductions := by
    intro s hk hs
    rw [introductions_of_kind hk hs,
      introductions_of_kind (n := p.exchange i r) hk hs]
    exact .nil
  rcases hcalm with hcalm | hinside
  · exact hcalm.introductions (hformed _ List.mem_cons_self) hi
  · cases hinside with
    | member hk => exact hquiet hk (by decide)
    | within hk _ => exact hquiet hk (by decide)

end Node

-- ================================================================ programs

theorem Place.declared_exchange {p : Place} {q r n : Node} {i : Nat}
    {up : List (Node × Nat)} (h : FitsCalmly ((q, i) :: up) r n)
    (hi : q.children[i]? = some n) :
    List.Forall₂ Use.Weaker (p.declared (q.exchange i r)) (p.declared q) := by
  refine List.rel_flatMap (h.introductions hi) fun x y hxy => ?_
  obtain ⟨t, k, a⟩ := x
  obtain ⟨t', k', b⟩ := y
  obtain ⟨rfl, rfl, hwraps⟩ := hxy
  rw [List.forall₂_map_left_iff, List.forall₂_map_right_iff]
  exact List.forall₂_same.2 fun s _ => .declares _ s hwraps

/-- What is around a place in a shaped tree is formed. -/
theorem Cursor.formed_of_placedIn {above : List (Node × Nat)} {n : Node}
    (h : PlacedIn n above) (hroot : (rootIn n above).Shaped) :
    ∀ q ∈ above, q.1.Formed := by
  induction above generalizing n with
  | nil => exact List.forall_mem_nil _
  | cons pi up ih =>
      obtain ⟨p, i⟩ := pi
      rw [List.forall_mem_cons]
      have hplaced : Placed ⟨p, up⟩ := h.2
      exact ⟨(hroot.of_mem_walk (node_mem_walk hplaced.mem_walk_root)).formed,
        ih h.2 hroot⟩

/-- Around a replacement a tree uses and declares what it did, save that it
may cease to declare wrappers. -/
theorem Cursor.uses_plug {c : Cursor} {r : Node} (hc : c.Placed)
    (hrole : r.role = c.node.role) (h : FitsCalmly c.above r c.node) :
    ∃ before before' after after', List.Forall₂ Use.Weaker before' before
      ∧ List.Forall₂ Use.Weaker after' after
      ∧ (plug c.above c.node).uses ⟨.plain, 0, []⟩
        = before ++ (c.node.uses c.place ++ after)
      ∧ (plug c.above r).uses ⟨.plain, 0, []⟩
        = before' ++ (r.uses c.place ++ after') := by
  refine usage.of_plug Use.Weaker.refl ?_ ?_ hc hrole h
  · intro a p i up n r hi hlike
    refine List.rel_append (List.forall₂_same.2 fun u _ => .refl u) ?_
    exact Place.declared_exchange hlike hi
  · exact fun p i up n r hi hlike => hlike.set hi

/-- Around a rewrite the program uses and declares what it did, save that
it may cease to declare wrappers. -/
theorem Step.uses_after {names : List Text} {k : Symbol} {w : Workspace} {r : Rewrite}
    {p : Cursor} (h : Step names k w r p)
    (hcalm : Calm (w.inserted p.node r.site.node r.new).1 r.site.node
      ∨ Inside r.site.above) :
    ∃ before before' after after', List.Forall₂ Use.Weaker before' before
      ∧ List.Forall₂ Use.Weaker after' after
      ∧ w.program.uses ⟨.plain, 0, []⟩
        = before ++ (r.site.node.uses r.site.place ++ after)
      ∧ (w.after r p).program.uses ⟨.plain, 0, []⟩ = before'
        ++ ((w.inserted p.node r.site.node r.new).1.uses r.site.place ++ after') := by
  obtain ⟨hplaced, -⟩ := Cursor.mem_walk_top.1 h.mem
  have hrole : (w.inserted p.node r.site.node r.new).1.role = r.site.node.role :=
    (Workspace.role_number _ _).trans (Workspace.role_fitted _ _ _)
  have hformed : ∀ q ∈ r.site.above, q.1.Formed := Cursor.formed_of_placedIn hplaced (by
    rw [Workspace.rootIn_eq h.mem]
    exact h.sound.shaped)
  rw [h.program_after, ← Workspace.rootIn_eq h.mem, ← Cursor.plug_eq_rootIn hplaced]
  exact Cursor.uses_plug hplaced hrole ⟨hformed, hcalm⟩

end Codemod
