import Mathlib.Data.List.Perm.Subperm
import ScriptEngine.Proofs.StoreChanges

/-!
# Chains of objects

A chain is the list of the objects along links, from a first one to one that has no link. Links
without a cycle make chains, and a chain has no repetition: an object in it fixes all that follow
it. So the walks of the engine, which are as long as the store is large, reach the end of every
chain.
-/

namespace ScriptEngine

namespace Store

/-- The objects along links, from the first one to one without a link. -/
def Chained (s : Store) (link : Object → Option ObjId) : Option ObjId → List ObjId → Prop
  | start, [] => start = none
  | start, id :: rest =>
    start = some id ∧ id.index < s.size ∧ Chained s link (link (s.object id)) rest

namespace Chained

variable {s t : Store} {link : Object → Option ObjId} {start : Option ObjId} {id : ObjId}
  {l l' : List ObjId}

variable (h : s.Chained link start l)

include h

/-- There is one chain from a start. -/
theorem unique (h' : s.Chained link start l') : l = l' := by
  induction l generalizing start l' with
  | nil =>
    cases l' with
    | nil => rfl
    | cons id rest => cases h.symm.trans h'.1
  | cons id rest ih =>
    cases l' with
    | nil => cases h'.symm.trans h.1
    | cons id' rest' =>
      obtain rfl : id = id' := Option.some.inj (h.1.symm.trans h'.1)
      rw [ih h.2.2 h'.2.2]

/-- A chain leads through objects of the store. -/
theorem bound : ∀ id ∈ l, id.index < s.size := by
  induction l generalizing start with
  | nil => simp
  | cons id rest ih =>
    intro j hj
    rcases List.mem_cons.mp hj with rfl | hj
    · exact h.2.1
    · exact ih h.2.2 j hj

/-- A chain goes on from each of its objects. -/
theorem of_mem (hid : id ∈ l) :
    ∃ rest, s.Chained link (some id) (id :: rest) ∧ id :: rest <:+ l := by
  induction l generalizing start with
  | nil => cases hid
  | cons j rest ih =>
    rcases List.mem_cons.mp hid with rfl | hid
    · exact ⟨rest, ⟨rfl, h.2⟩, List.suffix_refl _⟩
    · obtain ⟨rest', hrest, hsuffix⟩ := ih h.2.2 hid
      exact ⟨rest', hrest, hsuffix.trans (List.suffix_cons ..)⟩

/-- A chain that ends meets no object twice. -/
theorem nodup : l.Nodup := by
  induction l generalizing start with
  | nil => exact List.nodup_nil
  | cons id rest ih =>
    refine List.nodup_cons.mpr ⟨fun hmem => ?_, ih h.2.2⟩
    -- If the object came back, the chain from it would be a part of itself.
    obtain ⟨rest', hrest, hsuffix⟩ := h.2.2.of_mem hmem
    have hself : s.Chained link (some id) (id :: rest) := ⟨rfl, h.2⟩
    have hlen := (hrest.unique hself ▸ hsuffix).length_le
    rw [List.length_cons] at hlen
    omega

private theorem length_le_size : l.length ≤ s.size := by
  have hnodup : (l.map ObjId.index).Nodup := by
    refine List.Pairwise.map _ (fun a b hab heq => hab ?_) h.nodup
    cases a
    cases b
    exact congrArg ObjId.mk heq
  have hsub : l.map ObjId.index ⊆ List.range s.size := by
    intro i hi
    obtain ⟨id, hid, rfl⟩ := List.mem_map.mp hi
    exact List.mem_range.mpr (h.bound id hid)
  simpa using (List.subperm_of_subset hnodup hsub).length_le

private theorem walk_eq_of_le {fuel : Nat} (hfuel : l.length ≤ fuel) :
    s.walk link fuel start = l := by
  induction l generalizing start fuel with
  | nil =>
    obtain rfl : start = none := h
    rw [walk]
  | cons id rest ih =>
    obtain ⟨rfl, -, hrest⟩ := h
    obtain ⟨fuel, rfl⟩ := Nat.exists_eq_succ_of_ne_zero (show fuel ≠ 0 by simp at hfuel; omega)
    rw [walk, ih hrest (by simpa using hfuel)]

/-- A walk reaches the end of a chain. -/
theorem walk_eq : s.walk link s.size start = l :=
  h.walk_eq_of_le h.length_le_size

/-- The links of the objects in a chain are all that matters to it. -/
theorem congr (hsize : s.size ≤ t.size)
    (hlink : ∀ id ∈ l, link (t.object id) = link (s.object id)) : t.Chained link start l := by
  induction l generalizing start with
  | nil => exact h
  | cons id rest ih =>
    refine ⟨h.1, Nat.lt_of_lt_of_le h.2.1 hsize, ?_⟩
    rw [hlink id (by simp)]
    exact ih h.2.2 fun j hj => hlink j (by simp [hj])

end Chained

end Store

end ScriptEngine
