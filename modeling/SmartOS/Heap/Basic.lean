import SmartOS.MMU.Basic
import SmartOS.Lib.Loop

/-!
# The heap

The functions of `Heap.cpp`. A heap is an arena of memory, taken from the bump
allocator, that holds *entries*: a header of 24 bytes (`HeapEntry`: whether the
entry is free, its size, the next entry) followed by the bytes that are handed
out. The functions walk the entries by address, from each header to the byte
after the entry, and stop at the entry without a next one.

The loops may go on for ever if the headers are damaged, so the functions that
have one take fuel (`Lib.Loop`).
-/

namespace SmartOS

open Prog

/-! ## Headers -/

/-- `entry->free` -/
def entryFree (m : Mem) (entry : ℕ) : Bool := m entry != 0

/-- `entry->size` -/
def entrySize (m : Mem) (entry : ℕ) : ℕ := m.get64 (entry + 8)

/-- `entry->next` -/
def entryNext (m : Mem) (entry : ℕ) : ℕ := m.get64 (entry + 16)

def setEntryFree (m : Mem) (entry : ℕ) (free : Bool) : Mem := m.set entry (if free then 1 else 0)

def setEntrySize (m : Mem) (entry size : ℕ) : Mem := m.set64 (entry + 8) size

def setEntryNext (m : Mem) (entry next : ℕ) : Mem := m.set64 (entry + 16) next

/-- The address after an entry: `(uint8_t*)entry + sizeof(HeapEntry) + entry->size`. -/
def entryEnd (m : Mem) (entry : ℕ) : ℕ := wrap (entry + 24 + entrySize m entry)

/-! ## Functions -/

/-- The object `Heap`: where its entries start, and the size of its arena. -/
structure Heap where
  first : ℕ
  size : ℕ
  deriving Repr, DecidableEq

namespace Heap

/-- The constructor: one free entry. -/
def new (size : ℕ) (s : MMU) : Heap × MMU :=
  let (first, s) := kmalloc size s
  let m := setEntryFree s.mem first true
  let m := setEntrySize m first (wrapSub size 24)
  let m := setEntryNext m first 0
  (⟨first, size⟩, { s with mem := m })

/-- `split(entry, size)`. The size of the entry that is split off is a difference of 64 bits. -/
def split (entry size : ℕ) (m : Mem) : Mem :=
  let next := wrap (entry + size + 24)
  let m := setEntryFree m next true
  let m := setEntryNext m next (entryNext m entry)
  let m := setEntrySize m next (wrapSub size (wrap (entrySize m entry + 24)))
  let m := setEntryNext m entry next
  let m := setEntrySize m entry size
  setEntryFree m entry false

/-- The body of the loop of `clean`, at an entry. -/
def cleanBody : ℕ × Mem → (ℕ × Mem) ⊕ Mem
  | (entry, m) =>
    if entryNext m entry = 0 then .inr m
    else
      let next := entryEnd m entry
      let m :=
        if entryFree m entry && entryFree m next then
          let m := setEntrySize m entry (wrap (entrySize m entry + wrap (entrySize m next + 24)))
          setEntryNext m entry (entryNext m next)
        else m
      if entryNext m entry = 0 then .inr m else .inl (next, m)

def clean (this : Heap) (m : Mem) (fuel : ℕ) : Option Mem := loop cleanBody fuel (this.first, m)

/-- `free(ptr)` -/
def free (this : Heap) (ptr : ℕ) (m : Mem) (fuel : ℕ) : Option Mem :=
  let entry := wrapSub ptr 24
  this.clean (setEntryFree m entry true) fuel

/-- The body of the search of `malloc`: it leaves at an entry that is free and large enough, or at
    the last one. -/
def searchBody (size : ℕ) (m : Mem) (entry : ℕ) : ℕ ⊕ ℕ :=
  if (entrySize m entry < size || !entryFree m entry) && entryNext m entry != 0 then
    .inl (entryEnd m entry)
  else .inr entry

def search (this : Heap) (size : ℕ) (m : Mem) (fuel : ℕ) : Option ℕ :=
  loop (searchBody size m) fuel this.first

/-- What `malloc` does at the entry it has come to: the pointer it returns and the memory. -/
def take (entry size : ℕ) (m : Mem) : ℕ × Mem :=
  if entrySize m entry ≥ size && entrySize m entry ≤ wrap (size + 24) then
    (wrap (entry + 24), setEntryFree m entry false)
  else if entrySize m entry > wrap (size + 24) then (wrap (entry + 24), split entry size m)
  else (0, m)

/-- `malloc(size)` -/
def malloc (this : Heap) (size : ℕ) (m : Mem) (fuel : ℕ) : Option (ℕ × Mem) :=
  if size = 0 then some (0, m)
  else (this.search size m fuel).bind fun entry => some (take entry size m)

end Heap

end SmartOS
