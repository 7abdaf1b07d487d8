import Mathlib.Data.Finset.Card
import Mathlib.Data.List.Perm.Basic
import Btlib.Machine.Plain

namespace Btlib

structure Slot where
  inmem : Int
  busy : Bool
  writes : Int
  mem : Block

-- The slots of a handle, the queue of their indices from `lruh` to `lrut`, and the file behind them.
structure Cache where
  slot : Nat → Slot
  lru : List Nat
  marked : Nat
  labelled : Nat
  file : Disk
  turn : Nat

namespace Cache

variable [Build] {k : Cache} {blk : Int} {i j : Nat}

def findSlot (k : Cache) (blk : Int) : Option Nat :=
  (List.range ZMXBLK).find? fun i => (k.slot i).inmem = blk

def freeSlot (k : Cache) : Option Nat := (List.range ZMXBLK).find? fun i => (k.slot i).inmem < 0

def setSlot (k : Cache) (i : Nat) (f : Slot → Slot) : Cache :=
  { k with slot := Function.update k.slot i (f (k.slot i)) }

def bqmove (k : Cache) (i : Nat) : Cache := { k with lru := k.lru.erase i ++ [i] }

-- The busy slots at the head go to the tail; where all are busy there is no end to it.
def bqhead (k : Cache) : Option (Nat × Cache) :=
  match k.lru.dropWhile fun i => (k.slot i).busy with
  | [] => none
  | i :: lru => some (i, { k with lru := i :: lru ++ k.lru.takeWhile fun i => (k.slot i).busy })

-- `bwrblk` of the block in slot `i`
def flush (k : Cache) (i : Nat) : Cache :=
  if (k.slot i).writes ≠ 0 then
    { k.setSlot i fun s => { s with writes := 0 } with
      file := (k.file.grow (k.slot i).inmem).put (k.slot i).inmem (k.slot i).mem }
  else k

def bgtslt (k : Cache) : Option (Nat × Cache) :=
  match k.freeSlot with
  | some i => some (i, k)
  | none => k.bqhead.map fun r => (r.1, r.2.flush r.1)

def brdblk (k : Cache) (blk : Int) : Option (Option Block × Cache) :=
  match k.findSlot blk with
  | some i => some (some (k.slot i).mem, k.bqmove i)
  | none =>
      k.bgtslt.map fun r =>
        match r.2.file.read blk with
        | none => (none, r.2)
        | some b => (some b, (r.2.setSlot r.1 fun s => { s with inmem := blk, mem := b }).bqmove r.1)

def initcntrl (k : Cache) : Cache :=
  { k with
    slot := fun i => { k.slot i with inmem := ZNULL, busy := false, writes := 0 }
    lru := List.range ZMXBLK }

def onSlot (k : Cache) (blk : Int) (f : Nat → Cache) : Cache :=
  match k.findSlot blk with
  | some i => f i
  | none => k

end Cache

variable [Build]

-- A handle with its cache. `env` says whether the lock is granted the next time it is asked for, and what
-- the file holds then. No operation on the file fails.
def cached (env : Nat → Bool × Disk) : Prog.Machine Op Res Cache
  | .rd blk, k => (k.brdblk blk).map fun r => ((r.1, false), r.2)
  | .wr blk b n, k =>
      some ((), k.onSlot blk fun i => k.setSlot i fun s => { s with mem := b, writes := s.writes + n })
  | .busy blk on, k => some ((), k.onSlot blk fun i => k.setSlot i fun s => { s with busy := on })
  | .grow blk, k =>
      k.bgtslt.map fun r =>
        (.ok, ((r.2.bqmove r.1).setSlot r.1 fun s => { s with inmem := blk, writes := 1 }).flush r.1)
  | .mark blk, k => some ((), k.onSlot blk fun i => { k with marked := i })
  | .through n blk, k =>
      some ((), if n < (k.slot k.marked).writes then k.onSlot blk k.flush else k)
  | .wrblk blk, k => some (true, k.onSlot blk k.flush)
  | .wrall, k => some (true, (List.range ZMXBLK).foldl Cache.flush k)
  | .initcntrl, k => some ((), k.initcntrl)
  | .lock, k =>
      if (env k.turn).1 then some (true, { k with turn := k.turn + 1, file := (env k.turn).2 })
      else some (false, { k with turn := k.turn + 1 })
  | .unlock, k => some (true, k)
  | .creat, k => some (true, { k with file := Disk.empty })
  | .fopen, k => some (true, k)
  | .fclose, k => some (true, k)
  | .label blk, k =>
      k.bgtslt.map fun r =>
        ((), { r.2.setSlot r.1 (fun s => { s with inmem := blk }) with labelled := r.1 })
  | .relabel blk, k => some ((), k.setSlot k.labelled fun s => { s with inmem := blk })
  | .report _ _, k => some ((), k)

end Btlib
