import Btlib.Index.Map

namespace Btlib

open Multiway

abbrev Map : Type := Key → Option Int

-- The named calls on the keys of a root without duplicates.
inductive Call where
  | insert (key : Key) (val : Int)
  | find (key : Key)
  | update (key : Key) (val : Int)
deriving DecidableEq, Repr

namespace Call

def key : Call → Key
  | insert k _ => k
  | find k => k
  | update k _ => k

-- The code a call answers with, and `*val` where the code lets the caller look at it.
def answer [Build] : Call → BT (Int × Option Int)
  | insert k v => do return (← binsky k v, none)
  | find k => do
      let r ← bfndky k
      return (r.1, if r.1 = 0 then some r.2 else none)
  | update k v => do return (← bupdky (some k) v, none)

-- The same calls of a finite map.
def ofMap (μ : Map) : Call → (Int × Option Int) × Map
  | insert k v =>
      if μ k = none then ((0, none), Function.update μ k (some v)) else ((QDUP, none), μ)
  | find k => ((if μ k = none then QNOKEY else 0, μ k), μ)
  | update k v =>
      if μ k = none then ((QNOKEY, none), μ) else ((0, none), Function.update μ k (some v))

def answers [Build] : List Call → BT (List (Int × Option Int))
  | [] => return []
  | c :: cs => do
      let a ← c.answer
      let as ← answers cs
      return a :: as

def ofMaps (μ : Map) : List Call → List (Int × Option Int) × Map
  | [] => ([], μ)
  | c :: cs =>
      let r := c.ofMap μ
      let rs := ofMaps r.2 cs
      (r.1 :: rs.1, rs.2)

end Call

section Runs

variable [Build] {s s' : St} {os : List Int} {μ : Map} {keys : Nat}

theorem Root.mono {keys' : Nat} (h : Root s os μ keys) (hle : keys ≤ keys') : Root s os μ keys' := by
  obtain ⟨hw,n,t,fs,hp,hlen⟩ := h
  exact ⟨hw,n,t,fs,hp,hlen.trans hle⟩

theorem Leaves.mono {keys' : Nat} (h : Leaves s os keys μ s') (hle : keys ≤ keys') :
    Leaves s os keys' μ s' := ⟨h.keeps,h.root.mono hle⟩

theorem ends_answer (hcap : 3 ≤ ZMXKEY) (h : Root s os μ keys) (c : Call) (hkey : c.key.length ≤ 31)
    (hfuel : 2 * keys + 3 ≤ FUEL) :
    (exec c.answer s).Ends (Refused s.ctx.super.scroot) fun r =>
      r.1 = (c.ofMap μ).1 ∧ Leaves s os (keys + 1) (c.ofMap μ).2 r.2 := by
  obtain ⟨hw,n,t,fs,hp,hlen⟩ := h
  have hfuel' : 2 * t.inorder.length + 3 ≤ FUEL := by omega
  cases c with
  | insert k v =>
      simp only [Call.answer, exec_bind, exec_pure, Call.ofMap]
      refine Prog.Outcome.Ends.bind (ends_insert hcap hw hp hkey hfuel') ?_
      rintro ⟨code,s'⟩ (⟨⟨w,hw⟩,rfl,hl⟩ | ⟨hnone,rfl,hl⟩)
      · rw [if_neg (by simp [hw])]
        exact ⟨rfl,hl.mono (by omega)⟩
      · rw [if_pos hnone]
        exact ⟨rfl,hl.mono (by omega)⟩
  | find k =>
      simp only [Call.answer, exec_bind, exec_pure, Call.ofMap]
      refine Prog.Outcome.Ends.bind (ends_find hcap hw hp hkey hfuel') ?_
      rintro ⟨⟨code,val⟩,s'⟩ ⟨hl,⟨hnone,hcode⟩ | ⟨v,hv,hcode⟩⟩
      · simp only at hcode
        refine ⟨?_,hl.mono (by omega)⟩
        rw [hcode, hnone]
        rfl
      · simp only [Prod.mk.injEq] at hcode
        obtain ⟨rfl,rfl⟩ := hcode
        refine ⟨?_,hl.mono (by omega)⟩
        rw [hv]
        rfl
  | update k v =>
      simp only [Call.answer, exec_bind, exec_pure, Call.ofMap]
      refine Prog.Outcome.Ends.bind (ends_update hcap hw hp hkey hfuel') ?_
      rintro ⟨code,s'⟩ (⟨⟨w,hw⟩,rfl,hl⟩ | ⟨hnone,rfl,hl⟩)
      · rw [if_neg (by simp [hw])]
        exact ⟨rfl,hl.mono (by omega)⟩
      · rw [if_pos hnone]
        exact ⟨rfl,hl.mono (by omega)⟩

-- Induction on the calls: what one of them leaves is a root the rest can start from.
theorem ends_answers (hcap : 3 ≤ ZMXKEY) (h : Root s os μ keys) (cs : List Call)
    (hkeys : ∀ c ∈ cs, c.key.length ≤ 31) (hfuel : 2 * (keys + cs.length) + 3 ≤ FUEL) :
    (exec (Call.answers cs) s).Ends (Refused s.ctx.super.scroot) fun r =>
      r.1 = (Call.ofMaps μ cs).1 ∧ Leaves s os (keys + cs.length) (Call.ofMaps μ cs).2 r.2 := by
  induction cs generalizing s μ keys with
  | nil => exact ⟨rfl,.refl s os,h⟩
  | cons c cs ih =>
      simp only [List.length_cons] at hfuel
      simp only [Call.answers, exec_bind, exec_pure, Call.ofMaps, List.length_cons]
      refine Prog.Outcome.Ends.bind
        (ends_answer hcap h c (hkeys c List.mem_cons_self) (by omega)) ?_
      rintro ⟨a,s'⟩ ⟨rfl,hl⟩
      have hrest := ih hl.root (fun c hc => hkeys c (List.mem_cons_of_mem _ hc)) (by omega)
      rw [hl.keeps.root] at hrest
      refine Prog.Outcome.Ends.bind hrest ?_
      rintro ⟨as,s''⟩ ⟨rfl,hl'⟩
      exact ⟨rfl,hl.keeps.trans hl'.keeps,hl'.root.mono (by omega)⟩

-- Every sequence of calls on a root answers like a finite map, unless no block is to be had or the tree
-- is too high for the stack. The blocks `os` are those of the other roots.
theorem calls_like_map (hcap : 3 ≤ ZMXKEY) (h : Root s os μ keys) (cs : List Call)
    (hkeys : ∀ c ∈ cs, c.key.length ≤ 31) (hfuel : 2 * (keys + cs.length) + 3 ≤ FUEL) :
    (exec (Call.answers cs) s).Ends (Refused s.ctx.super.scroot) fun r =>
      r.1 = (Call.ofMaps μ cs).1 ∧ Root r.2 os (Call.ofMaps μ cs).2 (keys + cs.length) ∧
        ∀ b ∈ os, r.2.disk.block b = s.disk.block b :=
  (ends_answers hcap h cs hkeys hfuel).mono (fun _ _ h => h)
    fun _ hr => ⟨hr.1,hr.2.root,hr.2.keeps.other⟩

end Runs

section Fresh

variable [Build]

-- A block as `bsetbk` leaves it in a new file.
def Block.fresh (type nblks : Int) : Block where
  btype := type
  btver := ZVERS
  bthdr := 0
  misc := 0
  nxblk := ZNULL
  nkeys := 0
  nblks := nblks
  nxdup := ZNULL
  keyblk := fun _ => ⟨[],0,0⟩
  lnkblk := fun _ => 0
  data := fun _ => 0

-- An exclusive handle on the empty root in block 1 of a file of two blocks.
def St.fresh : St where
  ctx :=
    { isopen := true, shared := false, lckcnt := 0, wt_threshold := 0, err := ⟨"", 0, .none⟩,
      lf := ⟨[], ZNULL, ZNULL, false, ZNULL⟩, stk := [],
      super := ⟨2, 0, ZNULL, 1, 0, 0, Btlib.key "$$default"⟩, keyent := ⟨[], 0, 0⟩ }
  disk := ⟨fun b => Block.fresh ZROOT b, 2⟩

omit [Build] in
@[simp] theorem scroot_fresh : St.fresh.ctx.super.scroot = 1 := rfl

theorem root_fresh : Root St.fresh [0] (fun _ => none) 0 := by
  refine ⟨⟨rfl,rfl,rfl⟩,1,BTree.node 1 [] [BTree.nil],[],⟨⟨rfl,?_,?_,?_⟩,?_,?_,?_,?_,?_,rfl,?_⟩,?_⟩
  · exact holds_node.2 ⟨⟨rfl,trivial,trivial⟩,fun _ _ => trivial⟩
  · intro b hb
    obtain rfl : b = 1 := by simpa [BTree.ids_node] using hb
    rfl
  · refine ⟨rfl,by simp [BTree.ids_node],?_,rfl,by decide⟩
    intro b hb
    have hb : b = 1 ∨ b = 0 := by simpa [BTree.ids_node] using hb
    rcases hb with rfl | rfl <;> exact ⟨by decide,by decide⟩
  · exact BTree.wf_node.2 ⟨by decide,Nat.zero_le _,by decide,fun _ _ => trivial⟩
  all_goals simp [BTree.inorder_node, Sorted]

end Fresh

section Run

local instance smallBuild : Build := build32 20

attribute [local irreducible] exec

-- Thirty keys, which a root and two leaves hold, and some of them again.
def splitCalls : List Call :=
  (List.range 30).map (fun i => .insert [Fin.ofNat 256 (65 + i)] i) ++
    [.insert [65] 8, .update [65] 9, .find [65], .find [90], .find [66, 66]]

end Run

section Split

local instance splitBuild : Build := build32 80

attribute [local irreducible] exec

theorem calls_like_map_fresh :
    (exec (Call.answers splitCalls) St.fresh).Ends (Refused 1) (fun r =>
      r.1.drop 30 = [(QDUP, none), (0, none), (0, some 9), (0, some 25), (QNOKEY, none)] ∧
        Root r.2 [0] (Call.ofMaps (fun _ => none) splitCalls).2 35 ∧
          r.2.disk.block 0 = St.fresh.disk.block 0) ∧
      ∃ r, exec (Call.answers splitCalls) St.fresh = .done r ∧ (r.2.disk.block 1).nkeys = 1 := by
  constructor
  · have h := calls_like_map (by decide) root_fresh splitCalls (by decide) (by decide)
    refine h.mono (fun _ _ h => h) fun r hr => ⟨?_,hr.2.1,hr.2.2 0 (List.mem_singleton.2 rfl)⟩
    rw [hr.1]
    decide +kernel
  · have hrun : (exec (Call.answers splitCalls) St.fresh).result.any
        (fun r => decide ((r.2.disk.block 1).nkeys = 1)) = true := by decide +kernel
    obtain ⟨r,hr,hkeys⟩ := (Option.any_eq_true _ _).1 hrun
    exact ⟨r,Prog.Outcome.result_eq_some.1 hr,of_decide_eq_true hkeys⟩

end Split

end Btlib
