import Btlib.Keys.Names
import Btlib.Walk.Shared

namespace Btlib

open Multiway Links Prog

-- A call that is given a key, or the name of a root.
inductive Keyed where
  | binsky (val : Int)
  | bfndky
  | bupdky (val : Int)
  | bdelky
  | btins (data : List Byte) (dsize : Int)
  | btsel (dsize : Int)
  | btupd (data : List Byte) (dsize : Int)
  | btdel
  | btrecs
  | btcrtr
  | btchgr
  | btdelr

namespace Keyed

def call : Keyed → Key → Api
  | binsky val, key => .binsky key val
  | bfndky, key => .bfndky key
  | bupdky val, key => .bupdky (some key) val
  | bdelky, key => .bdelky (some key)
  | btins data dsize, key => .btins key data dsize
  | btsel dsize, key => .btsel key dsize
  | btupd data dsize, key => .btupd (some key) data dsize
  | btdel, key => .btdel (some key)
  | btrecs, key => .btrecs (some key)
  | btcrtr, key => .btcrtr key
  | btchgr, key => .btchgr key
  | btdelr, key => .btdelr key

variable [Build] {σ : Type}

-- The code a call comes back with, and what it leaves behind it.
def seen (a : Keyed) (h : Prog.Machine Op Res σ) (c : Ctx) (d : σ) (key : Key) : Prog.Outcome Op σ (Int × σ) :=
  (((a.call key).code c).run h d).map fun r => (r.1.1, r.2)

-- Only the first 31 bytes of the key count.
def Cut (a : Keyed) (h : Prog.Machine Op Res σ) (c : Ctx) (d : σ) (key : Key) : Prop :=
  a.seen h c d key = a.seen h c d (keycpy key)

theorem seen_plain (a : Keyed) (s : St) (key : Key) :
    a.seen plain s.ctx s.disk key = (exec (a.call key).code s).map fun r => (r.1, r.2.disk) := by
  rw [seen, exec]
  cases ((a.call key).code s.ctx).run plain s.disk <;> rfl

-- The calls that hand the key on to `bfndky` alone.
theorem code_keycpy (key : Key) (data : List Byte) (val dsize : Int) :
    ∀ a ∈ [bfndky, bupdky val, btsel dsize, btupd data dsize, btdel, btrecs, btchgr],
      (a.call (keycpy key)).code = (a.call key).code := by
  simp [call, Api.code, bfndky_keycpy, Btlib.bupdky, modifyKey, findKey, Btlib.btsel, btselGet, Btlib.btupd, Btlib.btdel,
    Btlib.btrecs, Btlib.btchgr, setup, setupNamed, setRootName, keycpy_keycpy]

theorem cut_of_code {a : Keyed} {key : Key} (h : (a.call (keycpy key)).code = (a.call key).code)
    (machine : Prog.Machine Op Res σ) (c : Ctx) (d : σ) : a.Cut machine c d key := by
  rw [Cut, seen, seen, h]

theorem cut_of_alike {a : Keyed} {key : Key} {Q : Int → Ctx → Ctx → Prop}
    (h : Alike Eq Q (a.call key).code (a.call (keycpy key)).code) (machine : Prog.Machine Op Res σ) (c : Ctx) (d : σ) :
    a.Cut machine c d key :=
  (h c c rfl).run machine d fun _ _ h => h.1

theorem cut_of_ne {a : Keyed} (hk : a ≠ bdelky) (hr : a ≠ btdelr) (h : Prog.Machine Op Res σ) (c : Ctx) (d : σ)
    (key : Key) : a.Cut h c d key := by
  cases a with
  | bdelky => exact absurd rfl hk
  | btdelr => exact absurd rfl hr
  | binsky val => exact cut_of_alike (alike_binsky key val) h c d
  | btins data dsize => exact cut_of_alike (alike_btins key data dsize) h c d
  | btcrtr => exact cut_of_alike (alike_btcrtr key) h c d
  | btupd data dsize => exact cut_of_code (code_keycpy key data 0 dsize _ (by simp)) h c d
  | bupdky val => exact cut_of_code (code_keycpy key [] val 0 _ (by simp)) h c d
  | btsel dsize => exact cut_of_code (code_keycpy key [] 0 dsize _ (by simp)) h c d
  | bfndky => exact cut_of_code (code_keycpy key [] 0 0 _ (by simp)) h c d
  | btdel => exact cut_of_code (code_keycpy key [] 0 0 _ (by simp)) h c d
  | btrecs => exact cut_of_code (code_keycpy key [] 0 0 _ (by simp)) h c d
  | btchgr => exact cut_of_code (code_keycpy key [] 0 0 _ (by simp)) h c d

end Keyed

section Deletion

variable [Build] {s : St} {l : List Item} {key : Key}

-- A handle on a file whose current root has the entries `l`.
def Rooted (s : St) (l : List Item) : Prop :=
  ∃ (m : Nat) (t : KeyTree m) (fs D os : List Int) (nd : Int → Nat) (live : Finset (Int × Nat))
    (ent : Int × Nat → DKey) (vals : KeyEnt → List Int), Shelf s t fs D os live ent vals ∧ Open os s ∧
      (live = ∅ ∨ Whole s t fs D os nd live ent) ∧ items vals t.inorder = l ∧ 2 * t.inorder.length + 3 ≤ FUEL

namespace Keyed

-- What a deletion starts from: the entries of the current root, or of the superroot.
def Ready (s : St) (l : List Item) : Keyed → Prop
  | bdelky => Rooted s l
  | btdelr => (∃ os, Open os s) ∧ Rooted s.atSuper l
  | _ => True

-- Where it does not come to compare the whole key with its entry, or they are the same.
def Clear (s : St) (l : List Item) (key : Key) : Keyed → Prop
  | bdelky => key.length ≤ 31 ∨ s.ctx.super.smode ≠ 0 ∨ tally (keycpy key) l ≠ 1
  | btdelr => key.length ≤ 31 ∨ s.ctx.super.smode ≠ 0 ∨ tally (keycpy key) l ≠ 1 ∨
      (keycpy key, s.ctx.super.scroot) ∈ l ∨ (keycpy key, ZSUPER) ∈ l
  | _ => True

theorem cut_of_exec {a : Keyed} (h : exec (a.call key).code s = exec (a.call (keycpy key)).code s) :
    a.Cut plain s.ctx s.disk key := by
  rw [Cut, seen_plain, seen_plain, h]

theorem cut_of_length {a : Keyed} (hl : key.length ≤ 31) : a.Cut plain s.ctx s.disk key := by
  rw [Cut, keycpy_eq hl]

theorem not_cut {a : Keyed} {E E' : Op → Disk → Prop} {code : Int}
    (hlong : (exec (a.call key).code s).Ends E fun r => r.1 = code)
    (hshort : (exec (a.call (keycpy key)).code s).Within E' fun r => r.1 ≠ code)
    (hret : (a.seen plain s.ctx s.disk key).result.isSome = true) : ¬ a.Cut plain s.ctx s.disk key := by
  rw [seen_plain] at hret
  rw [Cut, seen_plain, seen_plain]
  cases hx : exec (a.call key).code s with
  | stuck o d =>
      rw [hx] at hret
      cases hret
  | hung =>
      rw [hx] at hret
      cases hret
  | done r =>
      cases hy : exec (a.call (keycpy key)).code s with
      | stuck o d => exact nofun
      | hung => exact nofun
      | done q =>
          rw [hx] at hlong
          rw [hy] at hshort
          intro heq
          injection heq with heq
          exact hshort ((congrArg Prod.fst heq).symm.trans hlong)

theorem bdelky_cut (hb : Sized) (hcap : 3 ≤ ZMXKEY) (h : Rooted s l) (hc : bdelky.Clear s l key) :
    bdelky.Cut plain s.ctx s.disk key := by
  obtain ⟨m,t,fs,D,os,nd,live,ent,vals,hs,ho,hw,rfl,hf⟩ := h
  by_cases hmode : s.ctx.super.smode = 0
  · rcases hc with hl | hne | ht
    · exact cut_of_length hl
    · exact absurd hmode hne
    · exact cut_of_exec (exec_bdelky_cut hb hcap hs ho hw hf hmode ht)
  · exact cut_of_exec (exec_bdelky_readonly hs.isopen hmode _ _)

theorem bdelky_clear (hb : Sized) (hcap : 3 ≤ ZMXKEY) (h : Rooted s l)
    (hret : (bdelky.seen plain s.ctx s.disk key).result.isSome = true) (hcut : bdelky.Cut plain s.ctx s.disk key) :
    bdelky.Clear s l key := by
  obtain ⟨m,t,fs,D,os,nd,live,ent,vals,hs,ho,hw,rfl,hf⟩ := h
  by_contra hc
  obtain ⟨hl,hmode,ht⟩ := (not_or.trans (and_congr_right' not_or)).1 hc
  have hmode := not_not.1 hmode
  have ht := not_not.1 ht
  have hlong := ends_bdelky_long hb hcap hs ho hw hf hmode ht hl
  have ht' : tally (keycpy (keycpy key)) (items vals t.inorder) = 1 := by rw [keycpy_keycpy, ht]
  have hshort := within_bdelky_short hb hcap hs ho hw hf hmode ht' (keycpy_length key)
  exact not_cut (a := bdelky) (hlong.mono (fun _ _ h => h) fun _ h => h.1) (hshort.mono (fun _ _ h => h) fun _ h => h.1)
    hret hcut

theorem btdelr_cut (hb : Sized) (hcap : 3 ≤ ZMXKEY) (h : btdelr.Ready s l) (hc : btdelr.Clear s l key) :
    btdelr.Cut plain s.ctx s.disk key := by
  obtain ⟨⟨os',ho'⟩,m,t,fs,D,os,nd,live,ent,vals,hs,-,hw,rfl,hf⟩ := h
  rcases hc with hl | hc
  · exact cut_of_length hl
  · exact cut_of_exec (exec_btdelr_cut hb hcap ho' hs hw hf hc)

theorem btdelr_clear (hb : Sized) (hcap : 3 ≤ ZMXKEY) (h : btdelr.Ready s l)
    (hret : (btdelr.seen plain s.ctx s.disk key).result.isSome = true) (hcut : btdelr.Cut plain s.ctx s.disk key) :
    btdelr.Clear s l key := by
  obtain ⟨⟨os',ho'⟩,m,t,fs,D,os,nd,live,ent,vals,hs,-,hw,rfl,hf⟩ := h
  by_contra hc
  obtain ⟨hl,hc⟩ := not_or.1 hc
  obtain ⟨hmode,hc⟩ := not_or.1 hc
  obtain ⟨ht,hc⟩ := not_or.1 hc
  obtain ⟨hcur,hsuper⟩ := not_or.1 hc
  have hmode := not_not.1 hmode
  have ht := not_not.1 ht
  exact not_cut (a := btdelr) (ends_btdelr_long hb hcap ho' hs hw hf hmode ht hcur hsuper hl)
    (within_btdelr_short hb hcap ho' hs hw hf hmode ht hcur hsuper) hret hcut

-- Every call takes the first 31 bytes of a key for the key, on any machine, but for the deletion of a key or a root: that
-- does where it need not compare the key with its entry, or the key has no more bytes.
theorem cut_iff_clear (hb : Sized) (hcap : 3 ≤ ZMXKEY) (a : Keyed) (key : Key) :
    (a ≠ bdelky → a ≠ btdelr → ∀ (σ : Type) (h : Prog.Machine Op Res σ) (c : Ctx) (d : σ), a.Cut h c d key) ∧
    ∀ s l, a.Ready s l → (a.Clear s l key → a.Cut plain s.ctx s.disk key) ∧
      ((a.seen plain s.ctx s.disk key).result.isSome = true → (a.Cut plain s.ctx s.disk key ↔ a.Clear s l key)) := by
  refine ⟨fun hk hr _ h c d => cut_of_ne hk hr h c d key,fun s l hready => ?_⟩
  cases a with
  | bdelky =>
      have hcut : bdelky.Clear s l key → bdelky.Cut plain s.ctx s.disk key := bdelky_cut hb hcap hready
      exact ⟨hcut,fun hret => ⟨bdelky_clear hb hcap hready hret,hcut⟩⟩
  | btdelr =>
      have hcut : btdelr.Clear s l key → btdelr.Cut plain s.ctx s.disk key := btdelr_cut hb hcap hready
      exact ⟨hcut,fun hret => ⟨btdelr_clear hb hcap hready hret,hcut⟩⟩
  | _ =>
      refine ⟨fun _ => ?_,fun _ => iff_of_true ?_ trivial⟩
      all_goals exact cut_of_ne (by simp) (by simp) plain s.ctx s.disk key

end Keyed

end Deletion

section Run

attribute [local instance] smallBuild

-- The longest key there is, and one that has it for its first 31 bytes.
def longest : Key := List.replicate 31 97

def longer : Key := List.replicate 32 97

-- A root of the name `k`, beside the current one.
def St.named (k : Key) : St :=
  { St.fresh with
    disk := ⟨fun b =>
      if b = 0 then { Block.fresh ZROOT 3 with
        nkeys := 1
        keyblk := fun _ => ⟨k,2,ZNULL⟩
        lnkblk := fun _ => ZNULL }
      else { Block.fresh ZROOT 3 with lnkblk := fun _ => ZNULL }, 3⟩
    ctx.super.sblkmx := 3 }

def named (k : Key) : KeyTree 1 := BTree.node 0 [⟨k,2,ZNULL⟩] [BTree.nil,BTree.nil]

theorem shelf_named (k : Key) (hk : keycpy k = k) :
    Shelf (St.named k).atSuper (named k) [] [] [1,2] ∅ (fun _ => ⟨[],false,0,ZNULL,ZNULL⟩) fun e => [e.val] := by
  have hnodup : ([0, 1, 2] : List Int).Nodup := by decide
  have hsize : (0 : Int) ≤ 3 := by decide
  have hhas : ∀ b : Int, b = 0 ∨ b = 1 ∨ b = 2 → 0 ≤ b ∧ b < 3 := by omega
  refine ⟨⟨rfl,?_,?_,⟨rfl,hnodup,?_,rfl,hsize⟩⟩,⟨?_,?_,?_⟩,?_,by decide,?_,?_,?_,rfl⟩
  · exact holds_node.2 ⟨⟨rfl,⟨rfl,trivial⟩,⟨rfl,rfl,trivial⟩⟩,fun _ _ => trivial⟩
  · intro b hb
    obtain rfl : b = 0 := by simpa [named, BTree.ids_node] using hb
    rfl
  · intro b hb
    exact hhas b (by simpa [named, BTree.ids_node] using hb)
  · exact fun b hb => absurd hb List.not_mem_nil
  · exact fun b hb => absurd hb List.not_mem_nil
  · exact fun p hp => absurd hp (Finset.notMem_empty p)
  · have hcap : 1 ≤ ZMXKEY := by decide
    exact BTree.wf_node.2 ⟨by simp [Path.floor],hcap,rfl,fun _ _ => trivial⟩
  · simp [named, BTree.inorder_node, Sorted]
  · intro e he
    obtain rfl : e = ⟨k,2,ZNULL⟩ := by simpa [named, BTree.inorder_node] using he
    exact hk
  · intro e he
    obtain rfl : e = ⟨k,2,ZNULL⟩ := by simpa [named, BTree.inorder_node] using he
    exact ⟨[],Or.inl ⟨rfl,rfl,rfl⟩⟩

namespace Keyed

theorem ready_oneKey (k : Key) (hk : keycpy k = k) : bdelky.Ready (St.oneKey k false) [(k, 5)] := by
  have hs := shelf_oneKey k hk false
  have hfuel : 2 * 1 + 3 ≤ FUEL := by decide
  have hl : items (fun e => [e.val]) (oneKey k).inorder = [(k, 5)] := by simp [oneKey, BTree.inorder_node, items]
  exact ⟨1,oneKey k,[],[],[0],fun _ => 0,∅,_,fun e => [e.val],hs,hs.isOpen rfl,Or.inl rfl,hl,hfuel⟩

theorem ready_named (k : Key) (hk : keycpy k = k) : btdelr.Ready (St.named k) [(k, 2)] := by
  have hs := shelf_named k hk
  have hfuel : 2 * 1 + 3 ≤ FUEL := by decide
  have hroot : (0 : Int) ≤ 1 ∧ (1 : Int) < 3 := by decide
  have hne : ¬ (St.named k).ctx.shared = true := Bool.false_ne_true
  have hl : items (fun e => [e.val]) (named k).inorder = [(k, 2)] := by simp [named, BTree.inorder_node, items]
  refine ⟨⟨[],rfl,hroot,fun h => absurd h hne,fun h => absurd h hne,fun h => absurd h hne⟩,?_⟩
  exact ⟨1,named k,[],[],[1,2],fun _ => 0,∅,_,fun e => [e.val],hs,hs.isOpen rfl,Or.inl rfl,hl,hfuel⟩

attribute [local irreducible] exec

theorem cut_iff_clear_longer :
    (bdelky.Cut plain (St.oneKey longest false).ctx (St.oneKey longest false).disk longer ↔
      bdelky.Clear (St.oneKey longest false) [(longest, 5)] longer) ∧
    (btdelr.Cut plain (St.named longest).ctx (St.named longest).disk longer ↔
      btdelr.Clear (St.named longest) [(longest, 2)] longer) :=
  have hcap : 3 ≤ ZMXKEY := by decide
  ⟨((cut_iff_clear sized_small hcap bdelky longer).2 _ _ (ready_oneKey longest rfl)).2 (by decide +kernel),
    ((cut_iff_clear sized_small hcap btdelr longer).2 _ _ (ready_named longest rfl)).2 (by decide +kernel)⟩

-- A key is found, but not deleted; nor is a root.
theorem not_cut_longer :
    ((bdelky.seen plain (St.oneKey longest false).ctx (St.oneKey longest false).disk longer).result.map Prod.fst =
        some QDELER ∧
      (bdelky.seen plain (St.oneKey longest false).ctx (St.oneKey longest false).disk (keycpy longer)).result.map Prod.fst =
        some 0 ∧
      ¬ bdelky.Cut plain (St.oneKey longest false).ctx (St.oneKey longest false).disk longer) ∧
    ((btdelr.seen plain (St.named longest).ctx (St.named longest).disk longer).result.map Prod.fst = some QDELER ∧
      (btdelr.seen plain (St.named longest).ctx (St.named longest).disk (keycpy longer)).result.map Prod.fst = some 0 ∧
      ¬ btdelr.Cut plain (St.named longest).ctx (St.named longest).disk longer) := by
  have hkey : (bdelky.seen plain (St.oneKey longest false).ctx (St.oneKey longest false).disk longer).result.map Prod.fst =
      some QDELER := by decide +kernel
  have hkey' : (bdelky.seen plain (St.oneKey longest false).ctx (St.oneKey longest false).disk
      (keycpy longer)).result.map Prod.fst = some 0 := by decide +kernel
  have hroot : (btdelr.seen plain (St.named longest).ctx (St.named longest).disk longer).result.map Prod.fst =
      some QDELER := by decide +kernel
  have hroot' : (btdelr.seen plain (St.named longest).ctx (St.named longest).disk
      (keycpy longer)).result.map Prod.fst = some 0 := by decide +kernel
  have hne : some QDELER ≠ some (0 : Int) := by decide
  refine ⟨⟨hkey,hkey',fun hcut => ?_⟩,⟨hroot,hroot',fun hcut => ?_⟩⟩
  · rw [Cut] at hcut
    exact hne (hkey.symm.trans (by rw [hcut, hkey']))
  · rw [Cut] at hcut
    exact hne (hroot.symm.trans (by rw [hcut, hroot']))

end Keyed

end Run

end Btlib
