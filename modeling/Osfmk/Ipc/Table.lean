import Osfmk.Ipc.Entry

/-!
# Table sizes

`ipc/ipc_table.c`: the sizes a capability table can have are the elements of the array
`ipc_table_entries`, filled once by `ipc_table_init`.
-/

namespace Osfmk

/-- The array `ipc_table_entries`, with what the comment in `ipc/ipc_table.h` demands of
it: it ends with two equal sizes, increases strictly before that, and stays below
`MACH_PORT_INDEX(MACH_PORT_DEAD)`. -/
structure TableSizes where
  itsSize : ℕ → ℕ
  last : ℕ
  last_pos : 0 < last
  first_pos : 0 < itsSize 0
  increasing : ∀ i, i + 1 < last → itsSize i < itsSize (i + 1)
  repeated : itsSize last = itsSize (last - 1)
  bounded : ∀ i, i ≤ last → itsSize i ≤ machPortIndex machPortDead

namespace TableSizes

variable (T : TableSizes)

theorem itsSize_lt {i : ℕ} (hi : i ≤ T.last) : T.itsSize i < 2 ^ 24 := by
  have := T.bounded i hi
  have hd : machPortIndex machPortDead = 2 ^ 24 - 1 := by decide
  omega

theorem lt_of_lt {i j : ℕ} (hij : i < j) (hj : j < T.last) : T.itsSize i < T.itsSize j := by
  induction j with
  | zero => omega
  | succ j ih =>
    rcases Nat.lt_succ_iff_lt_or_eq.mp hij with h | rfl
    · exact (ih h (by omega)).trans (T.increasing j hj)
    · exact T.increasing i hj

theorem pos {i : ℕ} (hi : i ≤ T.last) : 0 < T.itsSize i := by
  have hlast := T.last_pos
  rcases Nat.eq_zero_or_pos i with rfl | h
  · exact T.first_pos
  · rcases hi.lt_or_eq with hlt | rfl
    · exact T.first_pos.trans (T.lt_of_lt h hlt)
    · rw [T.repeated]
      rcases Nat.eq_zero_or_pos (T.last - 1) with h0 | h0
      · rw [h0]; exact T.first_pos
      · exact T.first_pos.trans (T.lt_of_lt h0 (by omega))

theorem itsSize_pred_eq_iff {i : ℕ} (h0 : 0 < i) (hi : i ≤ T.last) :
    T.itsSize (i - 1) = T.itsSize i ↔ i = T.last := by
  constructor
  · intro h
    by_contra hne
    have := T.lt_of_lt (i := i - 1) (j := i) (by omega) (by omega)
    omega
  · rintro rfl
    exact T.repeated.symm

theorem itsSize_pred_le {i : ℕ} (h0 : 0 < i) (hi : i ≤ T.last) :
    T.itsSize (i - 1) ≤ T.itsSize i := by
  rcases hi.lt_or_eq with h | rfl
  · exact (T.lt_of_lt (by omega) h).le
  · exact T.repeated.ge

end TableSizes

def pageSize : ℕ := 4096

/-- `sizeof(struct ipc_entry)`. -/
def sizeofIpcEntry : ℕ := 16

/-- `sizeof(struct ipc_tree_entry)`. -/
def sizeofIpcTreeEntry : ℕ := 32

/-- The first loop of `ipc_table_fill`: powers of two up to the page size, at most `num`
of them. -/
def fillPowers (minsize : ℕ) : ℕ → ℕ → ℕ → List ℕ × ℕ × ℕ
  | 0, num, size => ([], num, size)
  | fuel + 1, num, size =>
    if 0 < num ∧ size < pageSize then
      if minsize ≤ size then
        let rest := fillPowers minsize fuel (num - 1) (size * 2)
        (size :: rest.1, rest.2)
      else fillPowers minsize fuel num (size * 2)
    else ([], num, size)

/-- The second loop of `ipc_table_fill`: increments of a page, fifteen times, then of two
pages, and so on up to eight. -/
def fillPages (minsize : ℕ) : ℕ → ℕ → ℕ → ℕ → ℕ → List ℕ
  | 0, _, _, _, _ => []
  | _ + 1, 0, _, _, _ => []
  | fuel + 1, num + 1, period, incrsize, size =>
    if period < 15 then
      if minsize ≤ size then size :: fillPages minsize fuel num (period + 1) incrsize (size + incrsize)
      else fillPages minsize fuel (num + 1) (period + 1) incrsize (size + incrsize)
    else
      fillPages minsize fuel (num + 1) 0
        (if incrsize < pageSize * 8 then incrsize * 2 else incrsize) size

/-- `ipc_table_fill`: `num` sizes of at least `min` elements of `elemsize` bytes. -/
def ipcTableFill (num min elemsize : ℕ) : List ℕ :=
  let powers := fillPowers (min * elemsize) 64 num 1
  (powers.1 ++ fillPages (min * elemsize) (num * 2 + 64) powers.2.1 0 pageSize powers.2.2).map
    (· / elemsize)

def ipcTableEntriesSize : ℕ := 512

/-- `ipc_table_entries` as `ipc_table_init` leaves it: the last two elements have the
same size. -/
def ipcTableEntriesList : List ℕ :=
  let its := ipcTableFill (ipcTableEntriesSize - 1) 4 sizeofIpcEntry
  its ++ [its.getLastD 0]

/-- The properties of `TableSizes`, read off a list from its element at `i` on. -/
def sizesIncrease : List ℕ → Bool
  | a :: b :: c :: l => decide (a < b) && sizesIncrease (b :: c :: l)
  | [a, b] => decide (a = b)
  | _ => true

theorem sizesIncrease_spec {l : List ℕ} (h : sizesIncrease l = true) (i : ℕ) :
    (i + 2 < l.length → l.getD i 0 < l.getD (i + 1) 0) ∧
      (i + 2 = l.length → l.getD i 0 = l.getD (i + 1) 0) := by
  induction l generalizing i with
  | nil => simp
  | cons a l ih =>
    cases l with
    | nil => simp
    | cons b l =>
      cases l with
      | nil =>
        simp only [sizesIncrease, decide_eq_true_eq] at h
        cases i with
        | zero => simp [h]
        | succ i => simp
      | cons c l =>
        simp only [sizesIncrease, Bool.and_eq_true, decide_eq_true_eq] at h
        cases i with
        | zero => simp [h.1]
        | succ i => simpa using ih h.2 i

theorem ipcTableEntriesList_length : ipcTableEntriesList.length = 512 := by decide +kernel

theorem ipcTableEntriesList_increase : sizesIncrease ipcTableEntriesList = true := by
  decide +kernel

theorem ipcTableEntriesList_bounds : ipcTableEntriesList.all
    (fun a => decide (0 < a ∧ a ≤ machPortIndex machPortDead)) = true := by
  decide +kernel

theorem ipcTableEntriesList_getD {i : ℕ} (hi : i < 512) : 0 < ipcTableEntriesList.getD i 0 ∧
      ipcTableEntriesList.getD i 0 ≤ machPortIndex machPortDead := by
  have hlt : i < ipcTableEntriesList.length := by rw [ipcTableEntriesList_length]; exact hi
  rw [List.getD_eq_getElem _ _ hlt]
  have := List.all_eq_true.mp ipcTableEntriesList_bounds _ (List.getElem_mem hlt)
  exact of_decide_eq_true this

/-- **The kernel's own array satisfies the demands on it.** -/
def ipcTableEntries : TableSizes where
  itsSize i := ipcTableEntriesList.getD i 0
  last := 511
  last_pos := by decide
  first_pos := (ipcTableEntriesList_getD (by decide)).1
  increasing i hi := (sizesIncrease_spec ipcTableEntriesList_increase i).1 (by
    rw [ipcTableEntriesList_length]; omega)
  repeated := ((sizesIncrease_spec ipcTableEntriesList_increase 510).2 (by
    rw [ipcTableEntriesList_length])).symm
  bounded i hi := (ipcTableEntriesList_getD (by omega)).2

end Osfmk
