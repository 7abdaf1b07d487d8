import Mathlib.Data.List.Nodup
import Mathlib.Logic.Function.Basic

-- Cells with one link each, and the way from one of them to another along the links.
namespace Thread

variable {ι : Type} {next next' : ι → ι} {a b c : ι} {l r : List ι}

def Way (next : ι → ι) : ι → List ι → ι → Prop
  | a, [], c => a = c
  | a, b :: l, c => a = b ∧ Way next (next b) l c

@[simp] theorem way_nil : Way next a [] c ↔ a = c := Iff.rfl

@[simp] theorem way_cons : Way next a (b :: l) c ↔ a = b ∧ Way next (next b) l c := Iff.rfl

theorem way_append : Way next a (l ++ r) c ↔ ∃ b, Way next a l b ∧ Way next b r c := by
  induction l generalizing a with
  | nil => simp
  | cons x l ih => simp only [List.cons_append, way_cons, ih, and_assoc, exists_and_left]

theorem way_snoc : Way next a (l ++ [b]) c ↔ Way next a l b ∧ next b = c := by
  rw [way_append]
  constructor
  · rintro ⟨d,hl,rfl,rfl⟩
    exact ⟨hl,rfl⟩
  · rintro ⟨hl,rfl⟩
    exact ⟨b,hl,rfl,rfl⟩

namespace Way

theorem congr (h : Way next a l c) (hl : ∀ b ∈ l, next' b = next b) : Way next' a l c := by
  induction l generalizing a with
  | nil => exact h
  | cons b l ih =>
      refine ⟨h.1,?_⟩
      rw [hl b List.mem_cons_self]
      exact ih h.2 fun d hd => hl d (List.mem_cons_of_mem _ hd)

theorem update [DecidableEq ι] (h : Way next a l c) (hb : b ∉ l) (d : ι) : Way (Function.update next b d) a l c :=
  h.congr fun _ hd => Function.update_of_ne (ne_of_mem_of_not_mem hd hb) _ _

theorem relink [DecidableEq ι] (h : Way next a (l ++ [b]) c) (hb : b ∉ l) (d : ι) :
    Way (Function.update next b d) a (l ++ [b]) d :=
  way_snoc.2 ⟨(way_snoc.1 h).1.update hb d,Function.update_self ..⟩

end Way

end Thread
