import Osfmk.Pager.Segment

/-!
# Synchronous writes to a paging segment

Without a structure for an asynchronous reply, `ps_write_device` calls `device_write` until all bytes
have been written (`dp_backing_store.c`).  After a short write it goes on behind the bytes that have
been written, and subtracts their number from those that are left.  The number of bytes it passes is
always the whole size, so a second call passes bytes that are not the caller's, and the device writes
them to records that are not the caller's.  The number of bytes that are left is an `int`: once it is
negative the write ends with success.

## Main results

* `writeDevice_right_iff` — the write stays in its range exactly when there is no second call.
-/

open List

namespace Osfmk.Paging.DeviceWrite

/-- A call of `device_write`: the first record, the buffer, the number of bytes that are passed and
the number of bytes that are written. -/
structure Call where
  record : ℕ
  addr : ℕ
  size : ℕ
  written : ℕ
  deriving DecidableEq

/-- How far the write has come. -/
inductive Status
  | success
  | error
  | panic
  | waiting
  deriving DecidableEq

/-- The loop for synchronous writes, with records of `2 ^ shift` bytes; a reply of the device is the
number of bytes written, or an error. -/
def writeLoop (shift size : ℕ) : List (Option ℕ) → ℕ → ℕ → ℤ → List Call × Status
  | [], _, _, _ => ([], .waiting)
  | none :: _, devOffset, addr, _ => ([⟨devOffset, addr, size, 0⟩], .error)
  | some bytesWritten :: replies, devOffset, addr, bytesToWrite =>
    let call := ⟨devOffset, addr, size, bytesWritten⟩
    if bytesWritten % 2 ^ shift ≠ 0 then ([call], .panic)
    else
      let left := bytesToWrite - bytesWritten
      if 0 < left then
        let r := writeLoop shift size replies (devOffset + bytesWritten / 2 ^ shift)
          (addr + bytesWritten) left
        (call :: r.1, r.2)
      else ([call], .success)

variable (pageShift : ℕ) (ps : Geometry) (offset addr size : ℕ)

/-- `ps_write_device`, as far as the replies of the device go. -/
def psWriteDevice (replies : List (Option ℕ)) : List Call × Status :=
  let shift := pageShift - ps.recordShift
  writeLoop shift size replies (ps.offset + offset / 2 ^ shift) addr size

/-- The write after `n` replies. -/
def run (replies : ℕ → Option ℕ) (n : ℕ) : List Call × Status :=
  psWriteDevice pageShift ps offset addr size ((List.range n).map replies)

/-- The device writes whole records, at least one of them and no more bytes than are passed. -/
def Legal (replies : ℕ → Option ℕ) : Prop :=
  ∀ i w, replies i = some w → 2 ^ (pageShift - ps.recordShift) ∣ w ∧ 0 < w ∧ w ≤ size

/-- A call writes records of the range only, and passes bytes of the buffer only. -/
def Call.Inside (c : Call) : Prop :=
  let shift := pageShift - ps.recordShift
  ps.offset + offset / 2 ^ shift ≤ c.record ∧
    c.record + c.written / 2 ^ shift ≤ ps.offset + (offset + size) / 2 ^ shift ∧
    addr ≤ c.addr ∧ c.addr + c.size ≤ addr + size

/-- A byte of the buffer is written to its own place on the device. -/
def Call.Places (b : ℕ) (c : Call) : Prop :=
  let shift := pageShift - ps.recordShift
  c.addr ≤ addr + b ∧ addr + b < c.addr + c.written ∧
    c.record * 2 ^ shift + (addr + b - c.addr) = (ps.offset + offset / 2 ^ shift) * 2 ^ shift + b

/-- The write ends, it stays in its range, and when it has succeeded every byte is in its place. -/
def Right (replies : ℕ → Option ℕ) : Prop :=
  (∃ n, (run pageShift ps offset addr size replies n).2 ∈ [Status.success, Status.error]) ∧
    ∀ n, (∀ c ∈ (run pageShift ps offset addr size replies n).1,
      c.Inside pageShift ps offset addr size) ∧
      ((run pageShift ps offset addr size replies n).2 = .success → ∀ b, b < size →
        ∃ c ∈ (run pageShift ps offset addr size replies n).1, c.Places pageShift ps offset addr b)

variable {pageShift ps offset addr size} {replies : ℕ → Option ℕ}

theorem run_succ (n : ℕ) : run pageShift ps offset addr size replies (n + 1) =
    psWriteDevice pageShift ps offset addr size
      (replies 0 :: (List.range n).map fun i => replies (i + 1)) := by
  rw [run, range_succ_eq_map, map_cons, map_map]
  rfl

theorem writeLoop_head (shift size : ℕ) (reply : Option ℕ) (devOffset addr : ℕ) (left : ℤ) :
    ∃ written, ⟨devOffset, addr, size, written⟩ ∈
      (writeLoop shift size [reply] devOffset addr left).1 := by
  cases reply with
  | none =>
    rw [writeLoop]
    exact ⟨0, mem_singleton_self _⟩
  | some v =>
    refine ⟨v, ?_⟩
    by_cases hmod : v % 2 ^ shift = 0
    · by_cases hleft : 0 < left - v
      · rw [writeLoop, if_neg (not_not.mpr hmod), if_pos hleft]
        exact mem_cons_self
      · rw [writeLoop, if_neg (not_not.mpr hmod), if_neg hleft]
        exact mem_singleton_self _
    · rw [writeLoop, if_pos hmod]
      exact mem_singleton_self _

/-- **A write of one call** that is inside the range and has written everything, or has failed. -/
theorem right_of_one {c : Call} {s : Status}
    (hrun : ∀ n, run pageShift ps offset addr size replies (n + 1) = ([c], s))
    (hstatus : s ∈ [Status.success, Status.error]) (hin : c.Inside pageShift ps offset addr size)
    (hall : s = .success → ∀ b, b < size → c.Places pageShift ps offset addr b) :
    Right pageShift ps offset addr size replies := by
  refine ⟨⟨1, by rw [hrun 0]; exact hstatus⟩, fun n => ?_⟩
  cases n with
  | zero => exact ⟨fun c hc => (by cases hc), fun hs => (by cases hs)⟩
  | succ n =>
    rw [hrun n]
    refine ⟨fun d hd => mem_singleton.mp hd ▸ hin, fun hs b hb => ?_⟩
    exact ⟨c, mem_singleton_self c, hall hs b hb⟩

theorem right_of_error (h0 : replies 0 = none) : Right pageShift ps offset addr size replies := by
  refine right_of_one (c := ⟨ps.offset + offset / 2 ^ (pageShift - ps.recordShift), addr, size, 0⟩)
    (s := .error) (fun n => ?_) (by simp) ⟨le_rfl, ?_, le_rfl, le_rfl⟩ (by simp)
  · rw [run_succ, h0]
    rfl
  · rw [Nat.zero_div]
    exact Nat.add_le_add_left (Nat.div_le_div_right (Nat.le_add_right _ _)) _

theorem right_of_all (hl : Legal pageShift ps size replies) (h0 : replies 0 = some size) :
    Right pageShift ps offset addr size replies := by
  refine right_of_one (c := ⟨ps.offset + offset / 2 ^ (pageShift - ps.recordShift), addr, size, size⟩)
    (s := .success) (fun n => ?_) (by simp) ⟨le_rfl, ?_, le_rfl, le_rfl⟩ fun _ b hb =>
      ⟨Nat.le_add_right _ _, Nat.add_lt_add_left hb _, ?_⟩
  · have hmod := Nat.mod_eq_zero_of_dvd (hl 0 size h0).1
    rw [run_succ, h0, psWriteDevice, writeLoop, if_neg (not_not.mpr hmod), if_neg (by omega)]
  · rw [Nat.add_assoc]
    exact Nat.add_le_add_left Nat.div_add_div_le_add_div _
  · rw [Nat.add_sub_cancel_left]

/-- **A write stays in its range exactly when there is no second call**: the first call writes
everything, or fails. -/
theorem writeDevice_right_iff (hsize : size < 2 ^ 31) (hl : Legal pageShift ps size replies) :
    Right pageShift ps offset addr size replies ↔ replies 0 = none ∨ replies 0 = some size := by
  refine ⟨fun hr => ?_, fun h => h.elim right_of_error (right_of_all hl)⟩
  cases h0 : replies 0 with
  | none => exact .inl rfl
  | some w =>
    obtain ⟨hdvd, hpos, hle⟩ := hl 0 w h0
    refine .inr (congrArg some ?_)
    by_contra hne
    -- the second call passes bytes that are not in the buffer
    have hmod := Nat.mod_eq_zero_of_dvd hdvd
    have hleft : (0 : ℤ) < size - w := by omega
    let record := ps.offset + offset / 2 ^ (pageShift - ps.recordShift) +
      w / 2 ^ (pageShift - ps.recordShift)
    obtain ⟨written, hsecond⟩ := writeLoop_head (pageShift - ps.recordShift) size
      (replies (0 + 1)) record (addr + w) (size - w)
    have hmem : ⟨record, addr + w, size, written⟩ ∈
        (run pageShift ps offset addr size replies 2).1 := by
      rw [run_succ, h0, psWriteDevice, writeLoop, if_neg (not_not.mpr hmod), if_pos hleft]
      rw [range_one, map_singleton]
      exact mem_cons_of_mem _ hsecond
    have hin : addr + w + size ≤ addr + size := ((hr.2 2).1 _ hmem).2.2.2
    omega

/-- A segment with eight records to a page of 4096 bytes. -/
def disk : Geometry := ⟨0, 0, 3, 64⟩

theorem writeDevice_right_once : Right 12 disk 0 0 8192 (fun _ => some 8192) := by
  refine (writeDevice_right_iff (by norm_num) fun i w hw => ?_).mpr (.inr rfl)
  cases hw
  norm_num [disk]

/-- The first call writes one page, and every other one two pages. -/
def shortWrite (i : ℕ) : Option ℕ := if i = 0 then some 4096 else some 8192

/-- After a first write of one page out of two, the second call writes eight records behind the range,
and the write ends with success. -/
theorem writeDevice_leaves_range : Legal 12 disk 8192 shortWrite ∧
    run 12 disk 0 0 8192 shortWrite 2 =
      ([⟨0, 0, 8192, 4096⟩, ⟨8, 4096, 8192, 8192⟩], .success) := by
  refine ⟨fun i w hw => ?_, by decide⟩
  unfold shortWrite at hw
  split at hw
  · cases hw
    norm_num [disk]
  · cases hw
    norm_num [disk]

end Osfmk.Paging.DeviceWrite
