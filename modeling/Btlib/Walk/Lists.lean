import Btlib.Machine.Free
import Btlib.Walk.Pos
import Btlib.Dups.Runs

namespace Btlib

open Multiway Links

section Walks

variable [Build] {m : Nat} {s : St} {fs D os : List Int} {live : Finset (Int × Nat)} {ent : Int × Nat → DKey}
  {vals : KeyEnt → List Int} {t : KeyTree m}

-- A walk: a starting call and the moves after it.
def walkFrom (st : Start) (as : List Move) : BT ((Int × Option Int) × List (Int × Option Item)) := do
  let a ← st.answer
  let rs ← Move.answers as
  return (a, rs)

theorem Shelf.has_root (h : Shelf s t fs D os live ent vals) : s.disk.Has s.ctx.super.scroot := by
  obtain ⟨m,rfl⟩ : ∃ k, m = k + 1 := ⟨m - 1,by have := h.pos; omega⟩
  rw [← h.index.link]
  exact h.index.has Index.link_mem

theorem Shelf.isOpen (h : Shelf s t fs D os live ent vals) (hs : s.ctx.shared = false) : Open os s := by
  have hne : ¬ s.ctx.shared = true := by rw [hs]; exact Bool.false_ne_true
  exact ⟨h.isopen,h.has_root,fun hc => absurd hc hne,fun hc => absurd hc hne,fun hc => absurd hc hne⟩

theorem ends_start (hb : Sized) (hcap : 3 ≤ ZMXKEY) (h : Shelf s t fs D os live ent vals) (ho : Open os s)
    (hf : 2 * t.inorder.length + 3 ≤ FUEL) (st : Start) (ht : s.ctx.shared = true → st.Told t.inorder) :
    (exec st.answer s).Ends (Refused s.ctx.super.scroot) fun r => r.1 = st.code (items vals t.inorder) ∧
      Here t.inorder D os live ent vals s.ctx.super.scroot (some (st.cursor (items vals t.inorder))) r.2 ∧
        r.2.ctx.shared = s.ctx.shared := by
  cases st with
  | find key =>
      simp only [Start.answer, exec_bind, exec_pure]
      exact (ends_call_find hb hcap h ho hf key).bind fun r hr => ⟨hr.1,hr.2.1,hr.2.2.2.1⟩
  | first =>
      simp only [Start.answer, exec_bind, exec_pure]
      exact (ends_first h ho (by omega) ht).bind fun r hr => ⟨congrArg (·, none) hr.1,hr.2.1,hr.2.2.1⟩
  | last =>
      simp only [Start.answer, exec_bind, exec_pure]
      exact (ends_last h ho (by omega) ht).bind fun r hr => ⟨congrArg (·, none) hr.1,hr.2.1,hr.2.2.1⟩

-- Induction on the moves: what one of them leaves is a place the rest can start from.
theorem ends_moves (hb : Sized) (hcap : 3 ≤ ZMXKEY) {l : List KeyEnt} {root : Int} {c : Cursor Item}
    (h : Here l D os live ent vals root (some c) s) (hf : 2 * l.length + 3 ≤ FUEL) (as : List Move) :
    (exec (Move.answers as) s).Ends (Refused root) fun r => r.1 = Move.along c as := by
  induction as generalizing s c with
  | nil => rfl
  | cons a as ih =>
      simp only [Move.answers, exec_bind, Move.along]
      refine (ends_move hb hcap h hf a).bind fun r hr => ?_
      rw [Option.bind_some] at hr
      cases ho : follow a.dir c with
      | none =>
          rw [ho] at hr
          have hr : r.1 = (QNOKEY, none) := hr.1
          simp [hr]
      | some y =>
          rw [ho] at hr
          obtain ⟨hr,h',-⟩ := hr
          have hcode : ¬ r.1.1 = QNOKEY := by
            rw [hr]
            exact fun hc : (0 : Int) = QNOKEY => absurd hc (by decide)
          simp only [if_neg hcode, exec_bind, exec_pure]
          refine (ih h').bind fun r' hr' => ?_
          rw [hr, hr']
          rfl

-- Every walk goes through the list of all entries, in the order of their keys and, within a key, of their
-- values.
theorem walks_like_list (hb : Sized) (hcap : 3 ≤ ZMXKEY) (h : Shelf s t fs D os live ent vals)
    (hs : s.ctx.shared = false) (hf : 2 * t.inorder.length + 3 ≤ FUEL) (st : Start) (as : List Move) :
    (exec (walkFrom st as) s).Ends (Refused s.ctx.super.scroot) fun r =>
      r.1 = (st.code (items vals t.inorder), Move.along (st.cursor (items vals t.inorder)) as) := by
  have hne : ¬ s.ctx.shared = true := by rw [hs]; exact Bool.false_ne_true
  simp only [walkFrom, exec_bind, exec_pure]
  refine (ends_start hb hcap h (h.isOpen hs) hf st fun hc => absurd hc hne).bind fun r hr => ?_
  obtain ⟨hr,h',-⟩ := hr
  refine (ends_moves hb hcap h' hf as).bind fun r' hr' => ?_
  rw [Prog.Outcome.ends_done, hr, hr']

end Walks

section Run

attribute [local instance] smallBuild

-- A root with two keys in one block, the first with two values in a block of duplicates.
def St.twoKeys : St :=
  { St.fresh with
    disk := ⟨fun b =>
      if b = 1 then { Block.fresh ZROOT 1 with
        nkeys := 2
        keyblk := fun i => if i = 0 then ⟨[65],addr (2, 0),addr (2, 1)⟩ else ⟨[66],9,ZNULL⟩
        lnkblk := fun _ => ZNULL }
      else if b = 2 then ((Block.fresh ZDUP 2).putEnt 0 ⟨[65],false,7,addr (2, 1),ZNULL⟩).putEnt entSz
        ⟨[65],false,8,ZNULL,addr (2, 0)⟩
      else Block.fresh ZROOT b, 3⟩
    ctx.super.sblkmx := 3 }

def twoKeys : KeyTree 1 :=
  BTree.node 1 [⟨[65],addr (2, 0),addr (2, 1)⟩,⟨[66],9,ZNULL⟩] [BTree.nil,BTree.nil,BTree.nil]

def twoDups (p : Int × Nat) : DKey :=
  if p.2 = 0 then ⟨[65],false,7,addr (2, 1),ZNULL⟩ else ⟨[65],false,8,ZNULL,addr (2, 0)⟩

theorem legible_twoKeys : Legible St.twoKeys [2] {(2, 0),(2, 1)} twoDups := by
  have hfits : ∀ i, wrap i = i → Fits i := fun _ h => h
  have hkey : ∀ b ∈ ([65] : Key), b ≠ 0 := by simp
  have hfirst : DKey.Fits ⟨[65],false,7,addr (2, 1),ZNULL⟩ :=
    ⟨by decide,hkey,hfits _ (by decide +kernel),hfits _ (by decide +kernel),hfits _ (by decide +kernel)⟩
  have hsecond : DKey.Fits ⟨[65],false,8,ZNULL,addr (2, 0)⟩ :=
    ⟨by decide,hkey,hfits _ (by decide +kernel),hfits _ (by decide +kernel),hfits _ (by decide +kernel)⟩
  refine ⟨fun b hb => ?_,fun b hb => ?_,fun p hp => ?_⟩
  · obtain rfl : b = 2 := by simpa using hb
    exact ⟨by decide,by decide,by decide⟩
  · obtain rfl : b = 2 := by simpa using hb
    rfl
  · have hp : p = (2, 0) ∨ p = (2, 1) := by simpa using hp
    rcases hp with rfl | rfl
    · refine ⟨List.mem_cons_self,by decide,?_,hfirst⟩
      exact (Block.ent_putEnt _ 0 (by decide)).putEnt (by decide) (Or.inl (by decide))
    · exact ⟨List.mem_cons_self,by decide,Block.ent_putEnt _ _ (by decide),hsecond⟩

theorem shelf_twoKeys : Shelf St.twoKeys twoKeys [] [2] [0] {(2, 0),(2, 1)} twoDups
    fun e => if e.key = [65] then [7,8] else [9] := by
  refine ⟨⟨rfl,?_,?_,⟨rfl,by decide,?_,rfl,by decide⟩⟩,legible_twoKeys,?_,by decide,?_,?_,?_,rfl⟩
  · refine holds_node.2 ⟨⟨rfl,⟨rfl,rfl,trivial⟩,⟨rfl,rfl,rfl,trivial⟩⟩,fun _ _ => trivial⟩
  · intro b hb
    obtain rfl : b = 1 := by simpa [twoKeys, BTree.ids_node] using hb
    rfl
  · intro b hb
    have hb : b = 1 ∨ b = 2 ∨ b = 0 := by simpa [twoKeys, BTree.ids_node] using hb
    rcases hb with rfl | rfl | rfl <;> exact ⟨by decide,by decide⟩
  · exact BTree.wf_node.2 ⟨by decide,by decide,by decide,fun _ _ => trivial⟩
  · simp only [twoKeys, BTree.inorder_node, Sorted]
    decide +kernel
  · intro e he
    have he : e = ⟨[65],addr (2, 0),addr (2, 1)⟩ ∨ e = ⟨[66],9,ZNULL⟩ := by
      simpa [twoKeys, BTree.inorder_node] using he
    rcases he with rfl | rfl <;> rfl
  · intro e he
    have he : e = ⟨[65],addr (2, 0),addr (2, 1)⟩ ∨ e = ⟨[66],9,ZNULL⟩ := by
      simpa [twoKeys, BTree.inorder_node] using he
    rcases he with rfl | rfl
    · exact ⟨[(2, 0),(2, 1)],Or.inr ⟨by decide,by decide,rfl,rfl,7,[8],rfl,⟨by decide,rfl⟩,8,[],rfl,⟨by decide,rfl⟩,rfl⟩⟩
    · exact ⟨[],Or.inl ⟨rfl,rfl,rfl⟩⟩

attribute [local irreducible] exec

theorem walks_like_list_twoKeys :
    (exec (walkFrom (.find [65]) [.next,.next,.prev,.prev,.next,.next,.next]) St.twoKeys).Ends (Refused 1) fun r =>
      r.1 = ((0, some 7), [(0, some ([65], 8)),(0, some ([66], 9)),(0, some ([65], 8)),(0, some ([65], 7)),
        (0, some ([65], 8)),(0, some ([66], 9)),(QNOKEY, none)]) := by
  have h := walks_like_list sized_small (by decide) shelf_twoKeys rfl (by decide) (.find [65])
    [.next,.next,.prev,.prev,.next,.next,.next]
  exact h.mono (fun _ _ h => h) fun r hr => hr.trans (by decide +kernel)

end Run

section Crowd

local instance crowdBuild : Build := build32 60

def crowdEnt (i : Nat) : KeyEnt := ⟨[Fin.ofNat 256 (65 + i)],i,ZNULL⟩

-- A root of one full block in a file that has no room for another.
def St.crowded : St :=
  { St.fresh with
    disk := ⟨fun b => { Block.fresh ZROOT b with
      nkeys := ZMXKEY
      keyblk := fun i => crowdEnt i.toNat
      lnkblk := fun _ => ZNULL }, 2097151⟩
    ctx.super.sblkmx := 2097151 }

def crowded : KeyTree 1 :=
  BTree.node 1 ((List.range ZMXKEY).map crowdEnt) (List.replicate (ZMXKEY + 1) BTree.nil)

theorem shelf_crowded : Shelf St.crowded crowded [] [] [0] ∅ twoDups fun e => [e.val] := by
  have hall : ∀ e ∈ crowded.inorder, keycpy e.key = e.key ∧ e.dup = ZNULL := by decide +kernel
  have hlinks : nodeLinks ((List.range ZMXKEY).map crowdEnt) (List.replicate (ZMXKEY + 1) (BTree.nil : KeyTree 0)) =
      (List.range (ZMXKEY + 1)).map fun _ => ZNULL := by decide +kernel
  refine ⟨⟨rfl,?_,?_,⟨rfl,by decide,?_,rfl,by decide⟩⟩,⟨fun b hb => absurd hb List.not_mem_nil,
    fun b hb => absurd hb List.not_mem_nil,fun p hp => absurd hp (Finset.notMem_empty p)⟩,?_,by decide,?_,
    fun e he => (hall e he).1,fun e he => ⟨[],Or.inl ⟨rfl,(hall e he).2,rfl⟩⟩,rfl⟩
  · refine holds_node.2 ⟨⟨rfl,Reads.map_range (fun i => crowdEnt i.toNat) 0 ZMXKEY,?_⟩,fun _ _ => trivial⟩
    rw [hlinks]
    exact Reads.map_range (fun _ => ZNULL) 0 (ZMXKEY + 1)
  · intro b hb
    obtain rfl : b = 1 := by simpa [crowded, BTree.ids_node] using hb
    rfl
  · intro b hb
    have hb : b = 1 ∨ b = 0 := by simpa [crowded, BTree.ids_node] using hb
    rcases hb with rfl | rfl <;> exact ⟨by decide,by decide⟩
  · exact BTree.wf_node.2 ⟨by decide,by decide,by decide,fun _ _ => trivial⟩
  · simp only [crowded, BTree.inorder_node, Sorted]
    decide +kernel

theorem found_crowded : ((speak (walkFrom (.find [65]) [.next]) St.crowded).result.map fun r => r.1.1) =
    some (QF2BIG, none) := by
  decide +kernel

theorem walks_unlike_list_crowded : ¬ ∀ (m : Nat) (t : KeyTree m) (s : St) (fs D os : List Int)
    (live : Finset (Int × Nat)) (ent : Int × Nat → DKey) (vals : KeyEnt → List Int),
    Shelf s t fs D os live ent vals → s.ctx.shared = false → m ≤ 20 →
    (∀ e ∈ t.inorder, 1 ≤ e.key.length ∧ e.key.length ≤ 31) → 2 * t.inorder.length + 3 ≤ FUEL →
    ∀ st as, ∃ s', speak (walkFrom st as) s =
      .done ((st.code (items vals t.inorder), Move.along (st.cursor (items vals t.inorder)) as), s') := by
  intro hall
  obtain ⟨s',hs'⟩ := hall 1 crowded St.crowded [] [] [0] ∅ twoDups _ shelf_crowded rfl (by decide)
    (by decide +kernel) (by decide +kernel) (.find [65]) [.next]
  have hcode := found_crowded
  rw [hs'] at hcode
  have hfound : Start.code (items (fun e => [e.val]) crowded.inorder) (.find [65]) ≠ (QF2BIG, none) := by
    decide +kernel
  exact hfound (Option.some.inj hcode)

end Crowd

end Btlib
