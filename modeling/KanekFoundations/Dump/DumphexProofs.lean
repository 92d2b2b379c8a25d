/-
  KanekFoundations.Dump.DumphexProofs — when the dumps end, and what they print then.

  A counter is 32 bits wide and the size is not. A dump that ends does what it is for: every
  byte of the buffer in its row, nothing outside the buffer read. A counter that cannot get to
  the size makes the loop run for ever.

  Proved:
  - `dumphex_run`, `dumpWords_run`: the events of a dump, and the rounds it takes.
  - `dumphex_endless`, `dumpWords_endless`: above the bound a dump never ends.
  - `dump_iff`: so each dump is right exactly up to its bound; `debugDisplay_iff` for the dump
    of a node of the allocator.
-/

import KanekFoundations.Dump.Dumphex
import KanekFoundations.Lib.Log
import KanekFoundations.Ta.Ta

namespace KanekFoundations.Dump

open KanekFoundations.Lib

variable {mem : Memory} {size : Nat}

/-! ## What a dump is to do -/

def Readable (mem : Memory) (size : Nat) : Prop := ∀ off < size, (mem off).isSome

def byteAt (mem : Memory) (off : Nat) : Byte := (mem off).getD 0

def wordAt (mem : Memory) (w off : Nat) : Nat :=
  Nat.ofDigits 256 (((List.range w).map fun j => byteAt mem (off + j)).map BitVec.toNat)

def charEvents (mem : Memory) (off : Nat) : List Event :=
  .read off :: if isprint (byteAt mem off) then [.read off, .print (charText (byteAt mem off))] else [.print "."]

/-- The row of word `i`. -/
def wordEvents (mem : Memory) (w i : Nat) : List Event :=
  (List.range w).map (fun j => .read (w * i + j)) ++
    .print ("[0x" ++ hex 8 i ++ "]  [0x" ++ hex (2 * w) (wordAt mem w (w * i)) ++ "]  ") ::
      ((List.range w).reverse.flatMap (fun j => charEvents mem (w * i + j)) ++ [.print "\n"])

/-- A column of the hex part, and one of the characters. -/
def hexColumn (mem : Memory) (size off : Nat) : List Event :=
  if off < size then [.read off, .print (hex 2 (byteAt mem off).toNat ++ " ")] else [.print "   "]

def charColumn (mem : Memory) (size off : Nat) : List Event :=
  if off < size then charEvents mem off else [.print " "]

/-- The sixteen columns of row `k`, in two groups. -/
def columns (column : Nat → List Event) (k : Nat) : List Event :=
  (List.range' (16 * k) 8).flatMap column ++ .print " " :: (List.range' (16 * k + 8) 8).flatMap column

def hexColumns (mem : Memory) (size k : Nat) : List Event :=
  .print ("0x" ++ hex 8 (16 * k) ++ "  ") :: columns (hexColumn mem size) k

def rowEvents (mem : Memory) (size k : Nat) : List Event :=
  hexColumns mem size k ++ .print "   " :: (columns (charColumn mem size) k ++ [.print "\n"])

def rowCount (size : Nat) : Nat := max 1 ((size + 15) / 16)

def dumpEvents (mem : Memory) (size : Nat) : List Event :=
  .print TITLE_COLUMNS :: .print TITLE_LINE :: ((List.range (rowCount size)).flatMap (rowEvents mem size) ++
    [.print "\n"])

def reads (es : List Event) : List Nat :=
  es.filterMap fun e => match e with
    | .read off => some off
    | .print _ => none

/-- `dumphex` ends after its rows, each byte once in the hex part of its row. -/
structure DumpsRows (mem : Memory) (size : Nat) : Prop where
  ends : ∀ fuel, dumphex mem size fuel [] = if rowCount size ≤ fuel then some (0, dumpEvents mem size) else none
  within : ∀ off ∈ reads (dumpEvents mem size), off < size
  once : ∀ k < rowCount size, reads (hexColumns mem size k) = List.range' (16 * k) (min 16 (size - 16 * k))

/-- A dump of words of `w` bytes ends after a row for each word. -/
def DumpsWords (mem : Memory) (w : Nat) (title : String) (size : Nat) (dump : Nat → Nat → M Unit) : Prop :=
  ∀ fuel, dump size fuel [] =
    if size / w ≤ fuel then some ((), .print title :: (List.range (size / w)).flatMap (wordEvents mem w)) else none

/-! ## Steps -/

theorem readByte_logs {off : Nat} (h : (mem off).isSome) : Logs (readByte mem off) (byteAt mem off) [.read off] := by
  intro log
  obtain ⟨b, hb⟩ := Option.isSome_iff_exists.mp h
  unfold readByte byteAt
  rw [hb]
  rfl

theorem printf_logs (text : String) : Logs (printf text) () [.print text] := fun _ => rfl

theorem printChar_logs {off : Nat} (h : (mem off).isSome) : Logs (printChar mem off) () (charEvents mem off) := by
  have hread := readByte_logs h
  refine hread.bind ?_
  cases isprint (byteAt mem off) with
  | true => exact hread.bind (printf_logs _)
  | false => exact printf_logs _

theorem readWord_logs {w off : Nat} (h : ∀ j < w, (mem (off + j)).isSome) :
    Logs (readWord mem w off) (wordAt mem w off) ((List.range w).map fun j => .read (off + j)) := by
  have hbytes := Logs.mapM fun j (hj : j ∈ List.range w) => readByte_logs (h j (List.mem_range.mp hj))
  rw [List.map_eq_flatMap]
  unfold readWord
  have hword := hbytes.bind (f := fun bytes => pure (Nat.ofDigits 256 (bytes.map BitVec.toNat))) (.pure _)
  rw [List.append_nil] at hword
  exact hword

theorem wordRow_logs {w i : Nat} (h : ∀ j < w, (mem (w * i + j)).isSome) :
    Logs (wordRow mem w i) () (wordEvents mem w i) := by
  have hchars : Logs ((List.range w).reverse.forM fun j => printChar mem (w * i + j)) ()
      ((List.range w).reverse.flatMap fun j => charEvents mem (w * i + j)) :=
    .forM fun j hj => printChar_logs (h j (List.mem_range.mp (List.mem_reverse.mp hj)))
  unfold wordRow wordEvents
  refine (readWord_logs h).bind ?_
  exact (printf_logs _).bind (hchars.bind (printf_logs _))

/-! ## dump_uint32 and dump_uint64 -/

/-- A word of the table is within the buffer. -/
theorem word_within {w i j : Nat} (hi : i < size / w) (hj : j < w) : w * i + j < size := by
  have hnext : w * (i + 1) ≤ w * (size / w) := Nat.mul_le_mul_left w hi
  have hall : w * (size / w) ≤ size := Nat.mul_div_le size w
  rw [Nat.mul_succ] at hnext
  omega

theorem wordRows_run {w n fuel k : Nat} (hn : n < 2 ^ 32) (hk : k ≤ n) (hfuel : n - k ≤ fuel)
    (h : ∀ i < n, Logs (wordRow mem w i) () (wordEvents mem w i)) :
    Logs (wordRows mem w n fuel k) () ((List.range' k (n - k)).flatMap (wordEvents mem w)) := by
  induction fuel generalizing k with
  | zero =>
    have hend : k = n := by omega
    subst hend
    unfold wordRows
    rw [if_neg (Nat.lt_irrefl k), Nat.sub_self]
    exact .pure ()
  | succ fuel ih =>
    unfold wordRows
    by_cases hlt : k < n
    · have hrest : n - k = n - (k + 1) + 1 := by omega
      rw [if_pos hlt, u32_of_lt (by omega), hrest, List.range'_succ, List.flatMap_cons]
      exact (h k hlt).bind (ih hlt (by omega))
    · have hend : n - k = 0 := by omega
      rw [if_neg hlt, hend]
      exact .pure ()

theorem wordRows_short {w n fuel k : Nat} (hn : n < 2 ^ 32) (hfuel : fuel < n - k)
    (h : ∀ i < n, Logs (wordRow mem w i) () (wordEvents mem w i)) (log : List Event) :
    wordRows mem w n fuel k log = none := by
  induction fuel generalizing k log with
  | zero =>
    unfold wordRows
    rw [if_pos (Nat.lt_of_sub_pos hfuel)]
    rfl
  | succ fuel ih =>
    unfold wordRows
    have hlt : k < n := by omega
    rw [if_pos hlt, u32_of_lt (by omega)]
    exact (h k hlt).bind_none (ih (by omega)) log

theorem dumpWords_run (h : Readable mem size) {w : Nat} (title : String) (hn : size / w < 2 ^ 32) :
    DumpsWords mem w title size (dumpWords mem w title) := by
  have hrows : ∀ i < size / w, Logs (wordRow mem w i) () (wordEvents mem w i) :=
    fun i hi => wordRow_logs fun j hj => h _ (word_within hi hj)
  intro fuel
  split
  · rename_i hfuel
    rw [List.range_eq_range']
    exact (printf_logs title).bind (wordRows_run hn (Nat.zero_le _) hfuel hrows) []
  · rename_i hfuel
    exact (printf_logs title).bind_none (wordRows_short hn (Nat.lt_of_not_le hfuel) hrows) []

/-- The counter never gets to 2^32. -/
theorem wordRows_endless {w n : Nat} (hn : 2 ^ 32 ≤ n) (fuel k : Nat) (log : List Event) :
    wordRows mem w n fuel (u32 k) log = none := by
  have hlt : u32 k < n := Nat.lt_of_lt_of_le (Nat.mod_lt k (by decide)) hn
  induction fuel generalizing k log with
  | zero =>
    unfold wordRows
    rw [if_pos hlt]
    rfl
  | succ fuel ih =>
    unfold wordRows
    rw [if_pos hlt, u32_add]
    have hnext : u32 (k + 1) < n := Nat.lt_of_lt_of_le (Nat.mod_lt _ (by decide)) hn
    exact wlp.bind_none (Q := fun _ _ => True) (fun _ _ _ => trivial) fun _ log' _ => ih (k + 1) log' hnext

theorem dumpWords_endless {w : Nat} (title : String) (hn : 2 ^ 32 ≤ size / w) (fuel : Nat) :
    dumpWords mem w title size fuel [] = none :=
  (printf_logs title).bind_none (wordRows_endless hn fuel 0) []

theorem dumpWords_iff (h : Readable mem size) {w : Nat} (title : String) :
    DumpsWords mem w title size (dumpWords mem w title) ↔ size / w < 2 ^ 32 := by
  refine ⟨fun hdump => ?_, dumpWords_run h title⟩
  by_contra hn
  have hrun := hdump (size / w)
  rw [dumpWords_endless title (Nat.le_of_not_lt hn), if_pos (Nat.le_refl _)] at hrun
  cases hrun

/-! ## The rows of dumphex -/

theorem forCells_succ (cell : Nat → Nat → M Unit) (lo n c : Nat) :
    forCells cell lo (lo + (n + 1)) c = cell lo c >>= fun _ => forCells cell (lo + 1) (lo + 1 + n) (u32 (c + 1)) := by
  unfold forCells
  rw [Nat.add_sub_cancel_left, Nat.add_sub_cancel_left, List.range'_succ, List.foldlM_cons, bind_assoc]
  rfl

/-- The column counter `i` and the counter `c` stay in step. -/
theorem forCells_logs {cell : Nat → Nat → M Unit} {g : Nat → List Event} {lo n c : Nat}
    (h : ∀ j < n, Logs (cell (lo + j) (u32 (c + j))) () (g (c + j))) :
    Logs (forCells cell lo (lo + n) (u32 c)) (u32 (c + n)) ((List.range' c n).flatMap g) := by
  induction n generalizing lo c with
  | zero =>
    unfold forCells
    rw [Nat.add_sub_cancel_left]
    exact .pure _
  | succ n ih =>
    rw [forCells_succ, u32_add, List.range'_succ, List.flatMap_cons]
    refine (h 0 (Nat.succ_pos n)).bind ?_
    have hrest : ∀ j < n, Logs (cell (lo + 1 + j) (u32 (c + 1 + j))) () (g (c + 1 + j)) := by
      intro j hj
      have hj' := h (j + 1) (Nat.succ_lt_succ hj)
      rwa [← Nat.add_assoc, ← Nat.add_assoc, Nat.add_right_comm lo, Nat.add_right_comm c] at hj'
    have hcells := ih hrest
    rwa [Nat.add_right_comm c 1 n] at hcells

/-- The counter, whatever the cells do. -/
theorem forCells_counter (cell : Nat → Nat → M Unit) (lo n c : Nat) (log : List Event) :
    wlp (forCells cell lo (lo + n) (u32 c)) (fun c' _ => c' = u32 (c + n)) log := by
  induction n generalizing lo c log with
  | zero =>
    unfold forCells
    rw [Nat.add_sub_cancel_left]
    exact wlp_pure rfl
  | succ n ih =>
    rw [forCells_succ, u32_add]
    refine wlp.skip fun _ log' => ?_
    rw [Nat.add_comm n 1, ← Nat.add_assoc]
    exact ih (lo + 1) (c + 1) log'

theorem hexCell_logs {p i l : Nat} (hl : p + i = l) (h : Readable mem size) :
    Logs (hexCell mem size p i l) () (hexColumn mem size l) := by
  unfold hexCell hexColumn
  by_cases hlt : l < size
  · rw [if_pos hlt, if_pos hlt, hl]
    exact (readByte_logs (h l hlt)).bind (printf_logs _)
  · rw [if_neg hlt, if_neg hlt]
    exact printf_logs _

theorem charCell_logs {p i m : Nat} (hm : p + i = m) (h : Readable mem size) :
    Logs (charCell mem size p i m) () (charColumn mem size m) := by
  unfold charCell charColumn
  by_cases hlt : m < size
  · rw [if_pos hlt, if_pos hlt, hm]
    exact printChar_logs (h m hlt)
  · rw [if_neg hlt, if_neg hlt]
    exact printf_logs _

/-- The two groups of columns of a row below 2^32. -/
theorem columns_logs {cell : Nat → Nat → M Unit} {column : Nat → List Event} {k : Nat} (hk : 16 * k + 16 ≤ 2 ^ 32)
    (h : ∀ i < 16, Logs (cell i (16 * k + i)) () (column (16 * k + i))) :
    Logs (do
      let c ← forCells cell 0 8 (u32 (16 * k))
      printf " "
      forCells cell 8 16 c) (u32 (16 * (k + 1))) (columns column k) := by
  have hleft : Logs (forCells cell 0 (0 + 8) (u32 (16 * k))) _ _ := forCells_logs fun j hj => by
    rw [u32_of_lt (by omega), Nat.zero_add]
    exact h j (by omega)
  have hright : Logs (forCells cell 8 (8 + 8) (u32 (16 * k + 8))) _ _ := forCells_logs fun j hj => by
    rw [u32_of_lt (by omega), Nat.add_assoc]
    exact h (8 + j) (by omega)
  exact hleft.bind ((printf_logs _).bind hright)

theorem dumpRow_logs {k : Nat} (h : Readable mem size) (hk : 16 * k + 16 ≤ 2 ^ 32) :
    Logs (dumpRow mem size ⟨16 * k, u32 (16 * k), u32 (16 * k)⟩)
      ⟨16 * (k + 1), u32 (16 * (k + 1)), u32 (16 * (k + 1))⟩ (rowEvents mem size k) := by
  have hhex : Logs (hexPart mem size (16 * k) (u32 (16 * k))) (u32 (16 * (k + 1))) (hexColumns mem size k) := by
    have hl : u32 (16 * k) = 16 * k := u32_of_lt (by omega)
    have hcolumns := columns_logs hk fun i _ => hexCell_logs (p := 16 * k) (i := i) rfl h
    unfold hexPart
    rw [hl]
    rw [hl] at hcolumns
    exact (printf_logs _).bind hcolumns
  have hchar : Logs (charPart mem size (16 * k) (u32 (16 * k))) (u32 (16 * (k + 1)))
      (columns (charColumn mem size) k) :=
    columns_logs hk fun i _ => charCell_logs rfl h
  unfold dumpRow rowEvents
  refine hhex.bind ((printf_logs _).bind (hchar.bind ?_))
  exact (printf_logs _).bind (.pure _)

theorem rowCount_next {k : Nat} : 16 * (k + 1) < size ↔ k + 1 < rowCount size := by
  unfold rowCount
  omega

theorem rowCount_le (hsize : size ≤ 2 ^ 32 - 16) : 16 * rowCount size ≤ 2 ^ 32 - 16 := by
  unfold rowCount
  omega

/-- After row `k` the loop goes on exactly when there is another row. -/
theorem dumpRows_succ {k : Nat} (hsize : size ≤ 2 ^ 32 - 16) (hk : k < rowCount size) :
    u32 (16 * (k + 1)) < size ↔ k + 1 < rowCount size := by
  have hle := rowCount_le hsize
  rw [u32_of_lt (by omega)]
  exact rowCount_next

theorem dumpRows_run {fuel k : Nat} (h : Readable mem size) (hsize : size ≤ 2 ^ 32 - 16) (hk : k < rowCount size)
    (hfuel : rowCount size - k ≤ fuel) :
    Logs (dumpRows mem size fuel ⟨16 * k, u32 (16 * k), u32 (16 * k)⟩) ()
      ((List.range' k (rowCount size - k)).flatMap (rowEvents mem size)) := by
  induction fuel generalizing k with
  | zero => omega
  | succ fuel ih =>
    have hle := rowCount_le hsize
    have hrow := dumpRow_logs h (show 16 * k + 16 ≤ 2 ^ 32 by omega)
    have hrest : rowCount size - k = rowCount size - (k + 1) + 1 := by omega
    rw [hrest, List.range'_succ, List.flatMap_cons]
    unfold dumpRows
    refine hrow.bind ?_
    by_cases hnext : k + 1 < rowCount size
    · rw [if_pos ((dumpRows_succ hsize hk).mpr hnext)]
      exact ih hnext (by omega)
    · have hend : rowCount size - (k + 1) = 0 := by omega
      rw [if_neg (mt (dumpRows_succ hsize hk).mp hnext), hend]
      exact .pure ()

theorem dumpRows_short {fuel k : Nat} (h : Readable mem size) (hsize : size ≤ 2 ^ 32 - 16)
    (hfuel : fuel < rowCount size - k) (log : List Event) :
    dumpRows mem size fuel ⟨16 * k, u32 (16 * k), u32 (16 * k)⟩ log = none := by
  induction fuel generalizing k log with
  | zero => rfl
  | succ fuel ih =>
    have hle := rowCount_le hsize
    have hrow := dumpRow_logs h (show 16 * k + 16 ≤ 2 ^ 32 by omega)
    have hnext : k + 1 < rowCount size := by omega
    unfold dumpRows
    refine hrow.bind_none (fun log' => ?_) log
    rw [if_pos ((dumpRows_succ hsize (by omega)).mpr hnext)]
    exact ih (by omega) log'

/-- The counter after a row, whatever could be read. -/
theorem dumpRow_counter {s : Cursor} {k : Nat} (hl : s.l = u32 (16 * k)) (log : List Event) :
    wlp (dumpRow mem size s) (fun s' _ => s'.l = u32 (16 * (k + 1))) log := by
  have hhex : wlp (hexPart mem size s.p s.l) (fun l _ => l = u32 (16 * (k + 1))) log := by
    unfold hexPart
    refine wlp.skip fun _ log' => ?_
    rw [hl]
    refine (forCells_counter _ 0 8 (16 * k) log').bind fun l log' hl' => ?_
    refine wlp.skip fun _ log' => ?_
    rw [hl']
    exact forCells_counter _ 8 8 (16 * k + 8) log'
  unfold dumpRow
  refine hhex.bind fun l log' hl' => ?_
  exact wlp.skip fun _ log' => wlp.skip fun _ log' => wlp.skip fun _ log' => wlp_pure hl'

/-- The counter is a multiple of 16, so at most 2^32 - 16. -/
theorem dumpRows_endless (hsize : 2 ^ 32 - 16 < size) (fuel : Nat) {s : Cursor} {k : Nat} (hl : s.l = u32 (16 * k))
    (log : List Event) : dumpRows mem size fuel s log = none := by
  induction fuel generalizing s k log with
  | zero => rfl
  | succ fuel ih =>
    unfold dumpRows
    refine (dumpRow_counter hl log).bind_none fun s' log' hl' => ?_
    have hlt : s'.l < size := by
      rw [hl']
      unfold u32
      omega
    rw [if_pos hlt]
    exact ih hl' log'

theorem dumphex_run (h : Readable mem size) (hsize : size ≤ 2 ^ 32 - 16) (fuel : Nat) :
    dumphex mem size fuel [] = if rowCount size ≤ fuel then some (0, dumpEvents mem size) else none := by
  have hrows : 0 < rowCount size := Nat.lt_of_lt_of_le Nat.zero_lt_one (Nat.le_max_left _ _)
  split
  · rename_i hfuel
    have hrun := dumpRows_run (k := 0) h hsize hrows hfuel
    rw [Nat.sub_zero, ← List.range_eq_range'] at hrun
    have hend : Logs (do printf "\n"; pure 0 : M Int) 0 [.print "\n"] := fun _ => rfl
    exact (printf_logs _).bind ((printf_logs _).bind (hrun.bind hend)) []
  · rename_i hfuel
    have hshort := dumpRows_short (k := 0) h hsize (Nat.lt_of_not_le hfuel)
    exact (printf_logs _).bind_none ((printf_logs _).bind_none fun log => bind_stuck _ (hshort log)) []

theorem dumphex_endless (hsize : 2 ^ 32 - 16 < size) (fuel : Nat) : dumphex mem size fuel [] = none := by
  have hrows : ∀ log, dumpRows mem size fuel ⟨0, 0, 0⟩ log = none := dumpRows_endless (k := 0) hsize fuel rfl
  exact (printf_logs _).bind_none ((printf_logs _).bind_none fun log => bind_stuck _ (hrows log)) []

/-! ## Reads -/

@[simp] theorem reads_nil : reads [] = [] := rfl
@[simp] theorem reads_read (off : Nat) (es : List Event) : reads (.read off :: es) = off :: reads es := rfl
@[simp] theorem reads_print (text : String) (es : List Event) : reads (.print text :: es) = reads es := rfl

@[simp] theorem reads_append (es es' : List Event) : reads (es ++ es') = reads es ++ reads es' := List.filterMap_append

@[simp] theorem reads_flatMap (f : Nat → List Event) (xs : List Nat) :
    reads (xs.flatMap f) = xs.flatMap fun x => reads (f x) := by
  induction xs with
  | nil => rfl
  | cons x xs ih => simp [ih]

theorem reads_hexColumn (off : Nat) : reads (hexColumn mem size off) = if off < size then [off] else [] := by
  unfold hexColumn
  split <;> simp

theorem reads_charColumn {off x : Nat} (hx : x ∈ reads (charColumn mem size off)) : x < size := by
  unfold charColumn charEvents at hx
  by_cases hlt : off < size
  · have hsame : x = off := by
      rw [if_pos hlt, reads_read] at hx
      split at hx <;> simpa using hx
    exact hsame ▸ hlt
  · simp [if_neg hlt] at hx

/-- Of the `n` columns from `a` on, those that the buffer has. -/
theorem flatMap_below (a n : Nat) :
    ((List.range' a n).flatMap fun off => if off < size then [off] else []) = List.range' a (min n (size - a)) := by
  induction n generalizing a with
  | zero => rw [Nat.zero_min]; rfl
  | succ n ih =>
    rw [List.range'_succ, List.flatMap_cons, ih]
    by_cases hlt : a < size
    · have hmin : min (n + 1) (size - a) = min n (size - (a + 1)) + 1 := by omega
      rw [if_pos hlt, hmin, List.range'_succ]
      rfl
    · have hmin : min (n + 1) (size - a) = 0 := by omega
      have hmin' : min n (size - (a + 1)) = 0 := by omega
      rw [if_neg hlt, hmin, hmin']
      rfl

theorem reads_columns (column : Nat → List Event) (k : Nat) :
    reads (columns column k) = (List.range' (16 * k) 16).flatMap fun off => reads (column off) := by
  have hsplit : List.range' (16 * k) 16 = List.range' (16 * k) 8 ++ List.range' (16 * k + 8) 8 :=
    (List.range'_append_1 (m := 8) (n := 8)).symm
  rw [hsplit, List.flatMap_append]
  simp [columns]

/-- The hex part of a row reads each byte of the row once, in order. -/
theorem reads_hexColumns (k : Nat) : reads (hexColumns mem size k) = List.range' (16 * k) (min 16 (size - 16 * k)) := by
  unfold hexColumns
  rw [reads_print, reads_columns, ← flatMap_below]
  simp only [reads_hexColumn]

theorem reads_rowEvents {k x : Nat} (hx : x ∈ reads (rowEvents mem size k)) : x < size := by
  simp only [rowEvents, reads_append, reads_print, reads_nil, List.append_nil, List.mem_append] at hx
  rcases hx with hhex | hchar
  · rw [reads_hexColumns] at hhex
    have hrange := List.mem_range'_1.mp hhex
    omega
  · rw [reads_columns] at hchar
    obtain ⟨off, -, hoff⟩ := List.mem_flatMap.mp hchar
    exact reads_charColumn hoff

theorem reads_dumpEvents {x : Nat} (hx : x ∈ reads (dumpEvents mem size)) : x < size := by
  simp only [dumpEvents, reads_append, reads_print, reads_nil, List.append_nil, reads_flatMap] at hx
  obtain ⟨k, -, hk⟩ := List.mem_flatMap.mp hx
  exact reads_rowEvents hk

/-! ## Up to their bounds the dumps are right -/

theorem dumphex_iff (h : Readable mem size) : DumpsRows mem size ↔ size ≤ 2 ^ 32 - 16 := by
  constructor
  · intro hdump
    by_contra hsize
    have hrun := hdump.ends (rowCount size)
    rw [dumphex_endless (Nat.lt_of_not_le hsize), if_pos (Nat.le_refl _)] at hrun
    cases hrun
  · exact fun hsize => ⟨dumphex_run h hsize, fun _ => reads_dumpEvents, fun k _ => reads_hexColumns k⟩

/-- The call that `ta_debug_display` makes for a node of `n` bytes: the header is dumped too. -/
theorem debugDisplay_iff {n : Nat} (hn : n < 2 ^ 32) (h : Readable mem (u64 (Ta.HEADER + n))) :
    DumpsRows mem (u64 (Ta.HEADER + n)) ↔ n ≤ 2 ^ 32 - 88 := by
  have hsum : u64 (Ta.HEADER + n) = Ta.HEADER + n := by
    unfold Ta.HEADER
    exact u64_of_lt (by omega)
  rw [dumphex_iff h, hsum]
  unfold Ta.HEADER
  omega

/-- Each dump does what it is for exactly while its counter can get to the size. -/
theorem dump_iff (h : Readable mem size) :
    (DumpsRows mem size ↔ size ≤ 2 ^ 32 - 16) ∧
    (DumpsWords mem 4 TITLE_UINT32 size (dumpUint32 mem) ↔ size < 2 ^ 34) ∧
    (DumpsWords mem 8 TITLE_UINT64 size (dumpUint64 mem) ↔ size < 2 ^ 35) := by
  refine ⟨dumphex_iff h, (dumpWords_iff h TITLE_UINT32).trans ?_, (dumpWords_iff h TITLE_UINT64).trans ?_⟩
  · omega
  · omega

/-- A buffer of `n` bytes, and nothing else, can be read. -/
def buffer (n : Nat) : Memory := fun off => if off < n then some 0x41 else none

theorem buffer_readable (n : Nat) : Readable (buffer n) n := by
  intro off hoff
  unfold buffer
  rw [if_pos hoff]
  rfl

theorem dump_iff_small : DumpsRows (buffer 24) 24 ∧
    DumpsWords (buffer 24) 4 TITLE_UINT32 24 (dumpUint32 (buffer 24)) ∧
    DumpsWords (buffer 24) 8 TITLE_UINT64 24 (dumpUint64 (buffer 24)) := by
  have hdump := dump_iff (buffer_readable 24)
  exact ⟨hdump.1.mpr (by decide), hdump.2.1.mpr (by decide), hdump.2.2.mpr (by decide)⟩

/-- A buffer of 4 GiB: the counter is 0 again when the loop gets to its end. -/
theorem dumphex_fourGiB : Readable (buffer (2 ^ 32)) (2 ^ 32) ∧ ¬ DumpsRows (buffer (2 ^ 32)) (2 ^ 32) ∧
    ∀ fuel, dumphex (buffer (2 ^ 32)) (2 ^ 32) fuel [] = none := by
  have hread := buffer_readable (2 ^ 32)
  exact ⟨hread, mt (dumphex_iff hread).mp (by decide), dumphex_endless (by decide)⟩

end KanekFoundations.Dump
