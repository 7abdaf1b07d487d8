import Btlib.Walk.Answers

namespace Btlib

open Multiway Links

-- The calls that give a walk its first place.
inductive Start where
  | find (key : Key)
  | first
  | last
deriving DecidableEq, Repr

namespace Start

def answer [Build] : Start → BT (Int × Option Int)
  | find k => do
      let r ← bfndky k
      return (r.1, if r.1 = 0 then some r.2 else none)
  | first => do return (← btpos ZSTART, none)
  | last => do return (← btpos ZEND, none)

def cursor (l : List Item) : Start → Cursor Item
  | find k => Cursor.seek Prod.fst (keycpy k) l
  | first => ⟨[], none, l⟩
  | last => ⟨l, none, []⟩

def code (l : List Item) : Start → Int × Option Int
  | find k => found (keycpy k) l
  | first => (0, none)
  | last => (0, none)

-- The key that `btpos` leaves is told apart from all of the keys `es`: the empty key is not there, and the last
-- key can be made greater in its last byte.
def Told (es : List KeyEnt) : Start → Prop
  | find _ => True
  | first => ∀ e ∈ es, e.key ≠ []
  | last => ∀ e ∈ es.getLast?, e.key ≠ [] ∧ e.key.getLast? ≠ some 255

instance (es : List KeyEnt) (st : Start) : Decidable (st.Told es) := by
  cases st <;> unfold Told <;> infer_instance

end Start

section Bump

theorem append_lt_append {k a b : Key} (h : a < b) : k ++ a < k ++ b := by
  induction k with
  | nil => exact h
  | cons x k ih => exact List.cons_lt_cons_iff.2 (Or.inr ⟨rfl,ih⟩)

-- `btpos ZEND` makes up a key that sorts after the last one, when its last byte can be counted up.
theorem lt_bumpLast {k : Key} (hk : k ≠ []) (hlast : k.getLast? ≠ some 255) : k < bumpLast k ∧ (bumpLast k).length = k.length := by
  obtain ⟨k,b,rfl⟩ := (List.eq_nil_or_concat' k).resolve_left hk
  have hb : b.val + 1 < 256 := by
    have hne : b ≠ 255 := fun h => hlast (by rw [h, List.getLast?_concat])
    have hval : b.val ≠ 255 := fun h => hne (Fin.ext h)
    have := b.isLt
    omega
  have hbump : bumpLast (k ++ [b]) = k ++ [Fin.ofNat 256 (b.val + 1)] := by
    simp only [bumpLast, List.getLast?_concat, List.dropLast_concat, if_pos hb]
  rw [hbump]
  refine ⟨append_lt_append (List.cons_lt_cons_iff.2 (Or.inl ?_)),by simp⟩
  rw [Fin.lt_def, Fin.val_ofNat, Nat.mod_eq_of_lt hb]
  exact Nat.lt_succ_self _

end Bump

variable {vals : KeyEnt → List Int} {l r : List KeyEnt} {e : KeyEnt} {s : St}

theorem tracks_first (h : Start.first.Told l) (hkey : s.ctx.lf.lfkey = []) : Tracks s ⟨[], none, items vals l⟩ := by
  refine ⟨by rw [hkey]; rfl,fun _ => ⟨fun x hx => absurd hx List.not_mem_nil,fun x hx => ?_⟩⟩
  obtain ⟨e,he,hx⟩ := mem_items hx
  rw [hkey, hx]
  obtain ⟨b,k,hk⟩ := List.exists_cons_of_ne_nil (h e he)
  rw [hk]
  exact List.nil_lt_cons b k

theorem tracks_last (h : Start.last.Told (l ++ [e])) (hsort : Multiway.Sorted KeyEnt.key (l ++ [e]))
    (hcopy : keycpy e.key = e.key) (hkey : s.ctx.lf.lfkey = keycpy (bumpLast (keycpy e.key))) :
    Tracks s ⟨items vals (l ++ [e]), none, []⟩ := by
  obtain ⟨hne,hlast⟩ := h e (by simp)
  obtain ⟨hlt,hlen⟩ := lt_bumpLast hne hlast
  have hshort : e.key.length ≤ 31 := hcopy ▸ keycpy_length e.key
  rw [hcopy, keycpy_eq (by rw [hlen]; exact hshort)] at hkey
  refine ⟨by rw [hkey, keycpy_eq (by rw [hlen]; exact hshort)],fun _ => ⟨fun x hx => ?_,fun x hx => absurd hx List.not_mem_nil⟩⟩
  obtain ⟨e',he',hx⟩ := mem_items hx
  rw [hkey, hx]
  rcases List.mem_append.1 he' with he' | he'
  · exact (hsort.lt he' (by simp)).trans hlt
  · obtain rfl := List.mem_singleton.1 he'
    exact hlt

end Btlib
