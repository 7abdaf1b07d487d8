import Btlib.Walk.Lists

namespace Btlib

open Multiway Links

-- A call that changes nothing but the place of its handle.
inductive Query where
  | start (st : Start)
  | move (a : Move)
deriving DecidableEq, Repr

namespace Query

inductive Reply where
  | start (r : Int × Option Int)
  | move (r : Int × Option Item)
deriving DecidableEq, Repr

def answer [Build] : Query → BT Reply
  | start st => do return .start (← st.answer)
  | move a => do return .move (← a.answer)

def answers [Build] : List Query → BT (List Reply)
  | [] => return []
  | q :: qs => do
      let r ← q.answer
      let rs ← answers qs
      return r :: rs

-- What it answers about the list `l` at the place `o`, and the place after it.
def reply (l : List Item) (o : Option (Cursor Item)) : Query → Reply × Option (Cursor Item)
  | start st => (.start (st.code l), some (st.cursor l))
  | move a => (.move (Move.reply (o.bind (follow a.dir))), (o.bind (follow a.dir)).map Prod.snd)

def replies (l : List Item) : Option (Cursor Item) → List Query → List Reply
  | _, [] => []
  | o, q :: qs => (q.reply l o).1 :: replies l (q.reply l o).2 qs

def Told (es : List KeyEnt) : Query → Prop
  | start st => st.Told es
  | move _ => True

instance (es : List KeyEnt) (q : Query) : Decidable (q.Told es) := by
  cases q <;> unfold Told <;> infer_instance

end Query

section Queries

variable [Build] {m : Nat} {s s' : St} {fs D os : List Int} {live : Finset (Int × Nat)} {ent : Int × Nat → DKey}
  {vals : KeyEnt → List Int} {t : KeyTree m} {l : List KeyEnt} {root : Int} {o : Option (Cursor Item)}

theorem ends_query (hb : Sized) (hcap : 3 ≤ ZMXKEY) (h : Here l D os live ent vals root o s)
    (hf : 2 * l.length + 3 ≤ FUEL) (q : Query) (ht : s.ctx.shared = true → q.Told l) :
    (exec q.answer s).Ends (Refused root) fun r => r.1 = (q.reply (items vals l) o).1 ∧
      Here l D os live ent vals root (q.reply (items vals l) o).2 r.2 ∧ r.2.ctx.shared = s.ctx.shared := by
  cases q with
  | start st =>
      obtain ⟨m,t,fs,hs,rfl,ho,-,rfl⟩ := h
      simp only [Query.answer, exec_bind, exec_pure]
      exact (ends_start hb hcap hs ho hf st ht).bind fun r hr => ⟨congrArg Query.Reply.start hr.1,hr.2⟩
  | move a =>
      simp only [Query.answer, exec_bind, exec_pure]
      exact (ends_move hb hcap h hf a).bind fun r hr => ⟨congrArg Query.Reply.move hr.1,hr.2⟩

-- Induction on the calls: each leaves a place the rest can start from.
theorem ends_queries (hb : Sized) (hcap : 3 ≤ ZMXKEY) (h : Here l D os live ent vals root o s)
    (hf : 2 * l.length + 3 ≤ FUEL) (qs : List Query) (ht : s.ctx.shared = true → ∀ q ∈ qs, q.Told l) :
    (exec (Query.answers qs) s).Ends (Refused root) fun r => r.1 = Query.replies (items vals l) o qs := by
  induction qs generalizing s o with
  | nil => rfl
  | cons q qs ih =>
      simp only [Query.answers, exec_bind]
      refine (ends_query hb hcap h hf q fun hs => ht hs q List.mem_cons_self).bind fun r hr => ?_
      obtain ⟨hr,h',hshared⟩ := hr
      refine (ih h' fun hs q' hq' => ht (hshared ▸ hs) q' (List.mem_cons_of_mem _ hq')).bind fun r' hr' => ?_
      rw [exec_pure, Prog.Outcome.ends_done, hr, hr']
      rfl

-- A shared handle answers every sequence of calls as an exclusive one on the same file, where the keys that `btpos`
-- makes up are told apart from those of the root.
theorem shared_like_exclusive (hb : Sized) (hcap : 3 ≤ ZMXKEY) (h : Shelf s t fs D os live ent vals)
    (hf : 2 * t.inorder.length + 3 ≤ FUEL) (ho : Open os s) (hdisk : s'.disk = s.disk)
    (hsuper : s'.ctx.super = s.ctx.super) (hopen : s'.ctx.isopen = true) (hs' : s'.ctx.shared = false)
    (hp : Place s t live ent vals o) (hp' : Place s' t live ent vals o) (qs : List Query)
    (ht : ∀ q ∈ qs, q.Told t.inorder) :
    (exec (Query.answers qs) s).Ends (Refused s.ctx.super.scroot) fun r =>
      (exec (Query.answers qs) s').Ends (Refused s.ctx.super.scroot) fun r' => r.1 = r'.1 := by
  have h' : Shelf s' t fs D os live ent vals := h.same hdisk hsuper (hopen.trans h.isopen.symm)
  have hhere : Here t.inorder D os live ent vals s.ctx.super.scroot o s := ⟨m,t,fs,h,rfl,ho,hp,rfl⟩
  have hhere' : Here t.inorder D os live ent vals s.ctx.super.scroot o s' :=
    ⟨m,t,fs,h',rfl,h'.isOpen hs',hp',congrArg Super.scroot hsuper⟩
  refine (ends_queries hb hcap hhere hf qs fun _ => ht).mono (fun _ _ h => h) fun r hr => ?_
  refine (ends_queries hb hcap hhere' hf qs fun _ => ht).mono (fun _ _ h => h) fun r' hr' => ?_
  rw [hr, hr']

end Queries

section Run

attribute [local instance] smallBuild

-- The key `k` alone in a root, on a handle that shares the file or does not.
def St.oneKey (k : Key) (shared : Bool) : St :=
  { St.fresh with
    disk := ⟨fun b =>
      if b = 0 then { Block.fresh ZROOT 2 with
        nkeys := 1
        keyblk := fun _ => ⟨Btlib.key "$$default",1,ZNULL⟩
        lnkblk := fun _ => ZNULL }
      else { Block.fresh ZROOT 2 with
        nkeys := 1
        keyblk := fun _ => ⟨k,5,ZNULL⟩
        lnkblk := fun _ => ZNULL }, 2⟩
    ctx.shared := shared }

def oneKey (k : Key) : KeyTree 1 := BTree.node 1 [⟨k,5,ZNULL⟩] [BTree.nil,BTree.nil]

theorem shelf_oneKey (k : Key) (hk : keycpy k = k) (shared : Bool) :
    Shelf (St.oneKey k shared) (oneKey k) [] [] [0] ∅ (fun _ => ⟨[],false,0,ZNULL,ZNULL⟩) fun e => [e.val] := by
  have hnodup : ([1, 0] : List Int).Nodup := by decide
  have hsize : (0 : Int) ≤ 2 := by decide
  have hhas : ∀ b : Int, b = 1 ∨ b = 0 → 0 ≤ b ∧ b < 2 := by omega
  refine ⟨⟨rfl,?_,?_,⟨rfl,hnodup,?_,rfl,hsize⟩⟩,⟨?_,?_,?_⟩,?_,by decide,?_,?_,?_,rfl⟩
  · exact holds_node.2 ⟨⟨rfl,⟨rfl,trivial⟩,⟨rfl,rfl,trivial⟩⟩,fun _ _ => trivial⟩
  · intro b hb
    obtain rfl : b = 1 := by simpa [oneKey, BTree.ids_node] using hb
    rfl
  · intro b hb
    exact hhas b (by simpa [oneKey, BTree.ids_node] using hb)
  · exact fun b hb => absurd hb List.not_mem_nil
  · exact fun b hb => absurd hb List.not_mem_nil
  · exact fun p hp => absurd hp (Finset.notMem_empty p)
  · have hcap : 1 ≤ ZMXKEY := by decide
    exact BTree.wf_node.2 ⟨by simp [Path.floor],hcap,rfl,fun _ _ => trivial⟩
  · simp [oneKey, BTree.inorder_node, Sorted]
  · intro e he
    obtain rfl : e = ⟨k,5,ZNULL⟩ := by simpa [oneKey, BTree.inorder_node] using he
    exact hk
  · intro e he
    obtain rfl : e = ⟨k,5,ZNULL⟩ := by simpa [oneKey, BTree.inorder_node] using he
    exact ⟨[],Or.inl ⟨rfl,rfl,rfl⟩⟩

theorem open_oneKey (k : Key) : Open [0] (St.oneKey k true) := by
  have hroot : (0 : Int) ≤ 1 ∧ (1 : Int) < 2 := by decide
  have hsuper : (0 : Int) ≤ 0 ∧ (0 : Int) < 2 := by decide
  have hfree : (0 : Int) < LFSHDR := by decide
  exact ⟨rfl,hroot,fun _ => Or.inl List.mem_cons_self,fun _ => le_rfl,
    fun _ _ => ⟨hsuper,rfl,rfl,rfl,rfl,rfl,hfree,rfl⟩⟩

theorem lost_oneKey (k : Key) (shared : Bool) : Lost (St.oneKey k shared) := ⟨rfl,rfl,rfl⟩

-- `btpos ZSTART` before the empty key, and `btpos ZEND` behind a key that ends in the byte 255, leave a shared handle
-- on the wrong side of the key.
theorem shared_skips_oneKey :
    (Shelf (St.oneKey [] true) (oneKey []) [] [] [0] ∅ (fun _ => ⟨[],false,0,ZNULL,ZNULL⟩) (fun e => [e.val]) ∧
      Open [0] (St.oneKey [] true) ∧
      (exec (Query.answers [.start .first,.move .next]) (St.oneKey [] true)).result.map Prod.fst =
        some [.start (0, none),.move (QNOKEY, none)] ∧
      (exec (Query.answers [.start .first,.move .next]) (St.oneKey [] false)).result.map Prod.fst =
        some [.start (0, none),.move (0, some ([], 5))]) ∧
    (Shelf (St.oneKey [255] true) (oneKey [255]) [] [] [0] ∅ (fun _ => ⟨[],false,0,ZNULL,ZNULL⟩) (fun e => [e.val]) ∧
      Open [0] (St.oneKey [255] true) ∧
      (exec (Query.answers [.start .last,.move .prev]) (St.oneKey [255] true)).result.map Prod.fst =
        some [.start (0, none),.move (QNOKEY, none)] ∧
      (exec (Query.answers [.start .last,.move .prev]) (St.oneKey [255] false)).result.map Prod.fst =
        some [.start (0, none),.move (0, some ([255], 5))]) := by
  refine ⟨⟨shelf_oneKey [] rfl true,open_oneKey [],?_,?_⟩,⟨shelf_oneKey [255] rfl true,open_oneKey [255],?_,?_⟩⟩
  all_goals decide +kernel

attribute [local irreducible] exec

theorem shared_like_exclusive_oneKey :
    (exec (Query.answers [.start .last,.move .prev,.move .prev,.move .next,.start (.find [65]),.move .next])
      (St.oneKey [65] true)).Ends (Refused 1) fun r =>
        (exec (Query.answers [.start .last,.move .prev,.move .prev,.move .next,.start (.find [65]),.move .next])
          (St.oneKey [65] false)).Ends (Refused 1) fun r' => r.1 = r'.1 :=
  have hdisk : (St.oneKey [65] false).disk = (St.oneKey [65] true).disk := rfl
  shared_like_exclusive sized_small (by decide) (shelf_oneKey [65] rfl true) (by decide) (open_oneKey [65]) hdisk rfl rfl
    rfl (o := none) (lost_oneKey [65] true) (lost_oneKey [65] false)
    [.start .last,.move .prev,.move .prev,.move .next,.start (.find [65]),.move .next] (by decide +kernel)

end Run

end Btlib
