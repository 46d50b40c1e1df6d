/-
Trees that are alike.

A tree that is read from a text has been built anew: its nodes have other
identities, and a string literal is cut into fragments and escapes. Sealed,
it has no identities and each string is one leaf, so a tree that is read and
one that is built can be compared (`Mirrors`). A node that is closed around
children mirrors the one that is built from what they mirror
(`mirrors_gather`).
-/
import Codemod.Parse.Progress
import Codemod.Proofs.Tree.Print

namespace Codemod

namespace Node

-- ============================================================== sealing

mutual

/-- The tree without identities, each string literal being one leaf. -/
def sealed : Node → Node
  | ⟨i, k, b, r, l, t, cs, z⟩ =>
    if k = .symbol .string then ⟨none, k, b, r, l, some (code ⟨i, k, b, r, l, t, cs, z⟩), [], []⟩
    else ⟨none, k, b, r, l, t, sealedAll cs, z⟩

/-- Neighbouring trees without identities. -/
def sealedAll : List Node → List Node
  | [] => []
  | c :: cs => sealed c :: sealedAll cs

end

variable {m n : Node} {s : Symbol} {r : Option Role} {l : Text}

theorem sealedAll_eq_map (cs : List Node) : sealedAll cs = cs.map sealed := by
  induction cs with
  | nil => rfl
  | cons c cs ih => rw [sealedAll, ih, List.map_cons]

theorem sealed_of_string (h : n.is .string = true) :
    n.sealed = ⟨none, .symbol .string, n.named, n.role, n.lead, some n.code, [], []⟩ := by
  obtain ⟨i, k, b, r, l, t, cs, z⟩ := n
  obtain rfl : k = .symbol .string := is_iff.1 h
  rw [sealed, if_pos rfl]

theorem sealed_of_not_string (h : n.is .string = false) :
    n.sealed = ⟨none, n.kind, n.named, n.role, n.lead, n.text, n.children.map sealed,
      n.tail⟩ := by
  obtain ⟨i, k, b, r, l, t, cs, z⟩ := n
  have hk : k ≠ .symbol .string := fun hk => by
    rw [is_iff.2 (show (Node.mk i k b r l t cs z).kind = _ from hk)] at h
    cases h
  rw [sealed, if_neg hk, sealedAll_eq_map]

@[simp] theorem kind_sealed (n : Node) : n.sealed.kind = n.kind := by
  cases h : n.is .string with
  | true => rw [sealed_of_string h, is_iff.1 h]
  | false => rw [sealed_of_not_string h]

@[simp] theorem lead_sealed (n : Node) : n.sealed.lead = n.lead := by
  cases h : n.is .string with
  | true => rw [sealed_of_string h]
  | false => rw [sealed_of_not_string h]

@[simp] theorem role_sealed (n : Node) : n.sealed.role = n.role := by
  cases h : n.is .string with
  | true => rw [sealed_of_string h]
  | false => rw [sealed_of_not_string h]

@[simp] theorem sealed_placed (n : Node) (r : Option Role) (l : Text) :
    (n.placed r l).sealed = n.sealed.placed r l := by
  cases h : n.is .string with
  | true =>
      rw [sealed_of_string h, sealed_of_string (n := n.placed r l) h, code_placed]
      rfl
  | false =>
      rw [sealed_of_not_string h, sealed_of_not_string (n := n.placed r l) h]
      rfl

mutual

/-- Sealing changes no text. -/
theorem code_sealed (n : Node) : n.sealed.code = n.code := by
  obtain ⟨i, k, b, r, l, t, cs, z⟩ := n
  rw [sealed]
  split
  · rfl
  · cases t with
    | some t => rfl
    | none => rw [code, code, codeAll_sealedAll cs]

theorem codeAll_sealedAll (cs : List Node) : codeAll (sealedAll cs) = codeAll cs := by
  cases cs with
  | nil => rfl
  | cons c cs => rw [sealedAll, codeAll, codeAll, lead_sealed, code_sealed c,
      codeAll_sealedAll cs]

end

mutual

theorem sealed_copy (n : Node) : n.copy.sealed = n.sealed := by
  have hcode := code_copy n
  obtain ⟨i, k, b, r, l, t, cs, z⟩ := n
  rw [copy] at hcode ⊢
  rw [sealed, sealed, hcode, sealedAll_copyAll cs]

theorem sealedAll_copyAll (cs : List Node) : sealedAll (copyAll cs) = sealedAll cs := by
  cases cs with
  | nil => rfl
  | cons c cs => rw [copyAll, sealedAll, sealedAll, sealed_copy c, sealedAll_copyAll cs]

end

/-- Sealing takes no notice of numbers. -/
theorem sealed_renumber (k : Nat) (n : Node) : (n.renumber k).1.sealed = n.sealed := by
  rw [← sealed_copy, copy_renumber, sealed_copy]

-- ============================================================ mirroring

/-- The node is no name with a default value in an object literal. -/
def IsSettled (n : Node) : Prop := n.is .objectAssignmentPattern = false

/-- The node that is read is the one that is built, sealed, and holds nothing
that only a pattern may hold. -/
structure Mirrors (m n : Node) : Prop where
  same : m.sealed = n.sealed
  settled : m.Every IsSettled

theorem Mirrors.kind_eq (h : Mirrors m n) : m.kind = n.kind := by
  rw [← kind_sealed m, h.same, kind_sealed]

theorem Mirrors.lead_eq (h : Mirrors m n) : m.lead = n.lead := by
  rw [← lead_sealed m, h.same, lead_sealed]

theorem Mirrors.role_eq (h : Mirrors m n) : m.role = n.role := by
  rw [← role_sealed m, h.same, role_sealed]

theorem Mirrors.isAny_eq (h : Mirrors m n) (ss : List Symbol) : m.isAny ss = n.isAny ss := by
  have his : m.is = n.is := funext fun s => by rw [is, is, h.kind_eq]
  rw [isAny, isAny, his]

theorem Mirrors.placed (h : Mirrors m n) (r : Option Role) (l : Text) :
    Mirrors (m.placed r l) (n.placed r l) := by
  constructor
  · rw [sealed_placed, sealed_placed, h.same]
  · have hall := every_iff.1 h.settled
    exact every_iff.2 ⟨hall.1, hall.2⟩

/-- A leaf mirrors itself. -/
theorem mirrors_self (hs : n.IsSettled) (hcs : n.children = []) : Mirrors n n := by
  refine ⟨rfl, every_iff.2 ⟨hs, ?_⟩⟩
  rw [hcs]
  exact List.forall_mem_nil _

variable {c k : Node} {cs ks : List Node}

theorem map_sealed_eq (h : List.Forall₂ Mirrors cs ks) : cs.map sealed = ks.map sealed := by
  induction h with
  | nil => rfl
  | cons hc _ ih => rw [List.map_cons, List.map_cons, hc.same, ih]

theorem settled_of_forall₂ (h : List.Forall₂ Mirrors cs ks) :
    ∀ c ∈ cs, c.Every IsSettled := by
  induction h with
  | nil => exact List.forall_mem_nil _
  | cons hc _ ih => exact List.forall_mem_cons.2 ⟨hc.settled, ih⟩

/-- A node that is closed starts where its first child starts. -/
theorem mirrors_gather (hs : s ∉ [.string, .objectAssignmentPattern])
    (hk : k.lead = []) (h : List.Forall₂ Mirrors cs (k.placed k.role l :: ks)) :
    Mirrors (gather s cs) ((branch s (k :: ks)).placed none l) := by
  simp only [List.mem_cons, List.not_mem_nil, or_false, not_or] at hs
  have hstring (ds : List Node) : (branch s ds).is .string = false := by
    simp [branch, is, hs.1]
  cases h with
  | @cons c _ cs _ hc hcs =>
      have hlead : c.lead = l := hc.lead_eq
      have hrole : c.role = k.role := hc.role_eq
      have hfirst : Mirrors (c.placed c.role []) k := by
        have hplaced := hc.placed c.role []
        have hself : (k.placed k.role l).placed c.role [] = k := by
          rw [hrole]
          obtain ⟨i, kind, b, r, lead, t, ds, z⟩ := k
          obtain rfl : lead = [] := hk
          rfl
        rwa [hself] at hplaced
      constructor
      · rw [gather, sealed_placed, sealed_placed, sealed_of_not_string (hstring _),
          sealed_of_not_string (hstring _), hlead]
        simp only [branch, List.map_cons, hfirst.same, map_sealed_eq hcs]
      · refine every_iff.2 ⟨?_, ?_⟩
        · simp [IsSettled, gather, branch, placed, is, hs.2]
        · rintro d hd
          rcases List.mem_cons.1 hd with rfl | hd
          · exact hfirst.settled
          · exact settled_of_forall₂ hcs d hd

end Node

end Codemod
