import Mathlib

/-!
# Descriptors within a message

The check at the beginning of `ipc_kmsg_copyin_body`: "make sure the message does not ask for more
msg descriptors than the message can hold".  Addresses have 32 bits, and the number of descriptors
is the user's.  The end of the message is written `&kmsg->ikm_header + msgh_size`, which counts
headers and not bytes: a message of `n` bytes is taken for one of `24 n`.
-/

namespace Osfmk.Bounds

/-- `sizeof(mach_msg_header_t)`. -/
def sizeofHeader : ℕ := 24

/-- `sizeof(mach_msg_body_t)`: the number of descriptors. -/
def sizeofBody : ℕ := 4

/-- `sizeof(mach_msg_descriptor_t)`. -/
def sizeofDescriptor : ℕ := 12

/-- A buffer with a message that `ipc_kmsg_get` has copied in. -/
structure Kmsg where
  ikmHeader : ℕ
  msghSize : ℕ
  msghDescriptorCount : ℕ
  room : ikmHeader + sizeofHeader + sizeofBody < 2 ^ 32
  size_lt : msghSize < 2 ^ 32
  count_lt : msghDescriptorCount < 2 ^ 32

/-- Arithmetic on pointers, which have 32 bits. -/
def addr (n : ℕ) : ℕ := n % 2 ^ 32

/-- `saddr = (mach_msg_descriptor_t *) (body + 1)`. -/
def saddr (k : Kmsg) : ℕ := addr (k.ikmHeader + sizeofHeader + sizeofBody)

/-- `eaddr = saddr + body->msgh_descriptor_count`. -/
def eaddr (k : Kmsg) : ℕ := addr (saddr k + sizeofDescriptor * k.msghDescriptorCount)

/-- `&kmsg->ikm_header + kmsg->ikm_header.msgh_size`. -/
def messageEnd (k : Kmsg) : ℕ := addr (k.ikmHeader + sizeofHeader * k.msghSize)

/-- `ipc_kmsg_copyin_body` does not return `MACH_SEND_MSG_TOO_SMALL` at once. -/
def initialCheck (k : Kmsg) : Bool := ! (eaddr k ≤ saddr k || messageEnd k < eaddr k)

/-- The descriptors that `for (; saddr < eaddr; saddr++)` visits, at most `n` of them: the two loops
of `ipc_kmsg_copyin_body` and the one of `ipc_kmsg_clean_body`. -/
def descriptorLoop : ℕ → ℕ → ℕ → List ℕ
  | 0, _, _ => []
  | n + 1, s, e => if s < e then s :: descriptorLoop n (addr (s + sizeofDescriptor)) e else []

/-- The header, the number of descriptors and all descriptors lie within the first `msgh_size`
bytes, in exact integers. -/
def InMessage (k : Kmsg) : Prop :=
  sizeofHeader + sizeofBody + sizeofDescriptor * k.msghDescriptorCount ≤ k.msghSize

/-- A loop over the descriptors, however long it runs, visits none that is not all within the
message. -/
def LoopsWithin (k : Kmsg) : Prop :=
  ∀ n, ∀ p ∈ descriptorLoop n (saddr k) (eaddr k),
    k.ikmHeader ≤ p ∧ p + sizeofDescriptor ≤ k.ikmHeader + k.msghSize

instance (k : Kmsg) : Decidable (InMessage k) := inferInstanceAs (Decidable (_ ≤ _))

theorem saddr_eq (k : Kmsg) : saddr k = k.ikmHeader + sizeofHeader + sizeofBody :=
  Nat.mod_eq_of_lt k.room

theorem addr_add {p : ℕ} (hp : p < 2 ^ 32) (n : ℕ) :
    (p + n % 2 ^ 32 < 2 ^ 32 ∧ addr (p + n) = p + n % 2 ^ 32) ∨
      (2 ^ 32 ≤ p + n % 2 ^ 32 ∧ addr (p + n) + 2 ^ 32 = p + n % 2 ^ 32) := by
  have hn : n % 2 ^ 32 < 2 ^ 32 := Nat.mod_lt _ (by decide)
  have hadd : addr (p + n) = (p + n % 2 ^ 32) % 2 ^ 32 := (Nat.add_mod_mod p n (2 ^ 32)).symm
  by_cases hlt : p + n % 2 ^ 32 < 2 ^ 32
  · exact Or.inl ⟨hlt, by rw [hadd, Nat.mod_eq_of_lt hlt]⟩
  · have hwrap : (p + n % 2 ^ 32) % 2 ^ 32 = p + n % 2 ^ 32 - 2 ^ 32 := by
      rw [Nat.mod_eq_sub_mod (by omega), Nat.mod_eq_of_lt (by omega)]
    exact Or.inr ⟨by omega, by omega⟩

/-- **What the check compares**: the bytes that the descriptors take and the bytes that the message
is taken to have, each as it is left by 32 bits. -/
theorem initialCheck_iff (k : Kmsg) : initialCheck k = true ↔
      0 < sizeofDescriptor * k.msghDescriptorCount % 2 ^ 32 ∧
        sizeofHeader + sizeofBody + sizeofDescriptor * k.msghDescriptorCount % 2 ^ 32 ≤
          sizeofHeader * k.msghSize % 2 ^ 32 ∧
        k.ikmHeader + sizeofHeader * k.msghSize % 2 ^ 32 < 2 ^ 32 := by
  have hroom := k.room
  have hs := saddr_eq k
  have he := addr_add (show saddr k < 2 ^ 32 by omega) (sizeofDescriptor * k.msghDescriptorCount)
  have hm := addr_add (show k.ikmHeader < 2 ^ 32 by omega) (sizeofHeader * k.msghSize)
  have hd : sizeofDescriptor * k.msghDescriptorCount % 2 ^ 32 < 2 ^ 32 := Nat.mod_lt _ (by decide)
  have hz : sizeofHeader * k.msghSize % 2 ^ 32 < 2 ^ 32 := Nat.mod_lt _ (by decide)
  simp only [initialCheck, Bool.not_eq_true', Bool.or_eq_false_iff, decide_eq_false_iff_not]
  rw [← eaddr] at he
  rw [← messageEnd] at hm
  generalize sizeofDescriptor * k.msghDescriptorCount % 2 ^ 32 = d at *
  generalize sizeofHeader * k.msghSize % 2 ^ 32 = z at *
  omega

theorem mem_descriptorLoop {e p : ℕ} (he : e < 2 ^ 32) :
    ∀ (n c s : ℕ), s + sizeofDescriptor * c = e → p ∈ descriptorLoop n s e →
      s ≤ p ∧ p + sizeofDescriptor ≤ e := by
  intro n
  induction n with
  | zero => intro c s _ hp; cases hp
  | succ n ih =>
    intro c s hs hp
    rw [descriptorLoop] at hp
    split at hp
    · next hlt =>
      -- one more descriptor fits, so that the next one does not wrap around
      obtain ⟨c, rfl⟩ : ∃ d, c = d + 1 := by
        cases c with
        | zero => simp at hs; omega
        | succ d => exact ⟨d, rfl⟩
      have hnext : addr (s + sizeofDescriptor) = s + sizeofDescriptor := by
        apply Nat.mod_eq_of_lt
        rw [Nat.mul_succ] at hs
        omega
      rw [hnext] at hp
      rcases List.mem_cons.mp hp with rfl | hp
      · rw [Nat.mul_succ] at hs; omega
      · have hin := ih c (s + sizeofDescriptor) (by rw [← hs, Nat.mul_succ]; omega) hp
        omega
    · cases hp

theorem loopsWithin_of_inMessage {k : Kmsg} (hc : initialCheck k = true) (hin : InMessage k) :
    LoopsWithin k := by
  have hcheck := (initialCheck_iff k).mp hc
  have hsize := k.size_lt
  rw [InMessage] at hin
  -- the descriptors take fewer than 2 ^ 32 bytes, so nothing wraps around
  have hmod : sizeofDescriptor * k.msghDescriptorCount % 2 ^ 32 =
      sizeofDescriptor * k.msghDescriptorCount := Nat.mod_eq_of_lt (by omega)
  rw [hmod] at hcheck
  have hend : eaddr k = saddr k + sizeofDescriptor * k.msghDescriptorCount := by
    apply Nat.mod_eq_of_lt
    rw [saddr_eq]
    omega
  intro n p hp
  have hlt : eaddr k < 2 ^ 32 := Nat.mod_lt _ (by decide)
  have hbetween := mem_descriptorLoop hlt n k.msghDescriptorCount (saddr k) hend.symm hp
  rw [hend, saddr_eq] at hbetween
  omega

/-- **When the check keeps the descriptors within the message.**  Every message that passes has its
descriptors within its bytes, and the loops stay there, exactly when the descriptors fit, or the
message is refused: because its descriptors take no bytes as 32 bits count them, because they end
after 24 times the size, or because 24 times the size runs over the end of the address space. -/
theorem check_bounds_iff (k : Kmsg) : (initialCheck k = true → InMessage k ∧ LoopsWithin k) ↔
      sizeofHeader + sizeofBody + sizeofDescriptor * k.msghDescriptorCount ≤ k.msghSize ∨
        sizeofDescriptor * k.msghDescriptorCount % 2 ^ 32 = 0 ∨
        sizeofHeader * k.msghSize % 2 ^ 32 <
          sizeofHeader + sizeofBody + sizeofDescriptor * k.msghDescriptorCount % 2 ^ 32 ∨
        2 ^ 32 ≤ k.ikmHeader + sizeofHeader * k.msghSize % 2 ^ 32 := by
  constructor
  · intro h
    by_cases hc : initialCheck k = true
    · exact Or.inl (h hc).1
    · rw [initialCheck_iff] at hc
      omega
  · intro h hc
    have hcheck := (initialCheck_iff k).mp hc
    have hin : InMessage k := by
      rcases h with hin | hzero | hend | hwrap
      · exact hin
      all_goals omega
    exact ⟨hin, loopsWithin_of_inMessage hc hin⟩

/-- A message with room for one descriptor, and with one. -/
def oneDescriptor : Kmsg := ⟨0x10000, 40, 1, by decide, by decide, by decide⟩

/-- A message of a header and a number of descriptors, which is two. -/
def bareCount : Kmsg := ⟨0x10000, 28, 2, by decide, by decide, by decide⟩

/-- The message passes, and the loops read two descriptors behind its end. -/
theorem descriptor_beyond_message : initialCheck bareCount = true ∧ ¬ InMessage bareCount ∧
      descriptorLoop 2 (saddr bareCount) (eaddr bareCount) =
        [bareCount.ikmHeader + bareCount.msghSize, bareCount.ikmHeader + bareCount.msghSize + 12] := by
  decide

/-- `MAX_TRAILER_SIZE`; with `DIPC` a trailer has one more word. -/
def maxTrailerSize (dipc : Bool) : UInt32 := if dipc then 24 else 20

/-- `IKM_OVERHEAD`; with `DIPC` a buffer has a handle. -/
def ikmOverhead (dipc : Bool) : UInt32 := if dipc then 20 else 16

def ikmSavedMsgSize (dipc : Bool) : UInt32 := 256 - ikmOverhead dipc

/-- The size check of `ipc_mqueue_finish_receive`; `trailer` is `REQUESTED_TRAILER_SIZE(option)`. -/
def finishReceiveFits (msghSize maxSize trailer : UInt32) : Bool :=
  !decide (msghSize > maxSize - trailer)

/-- The size check of the hot path of `mach_msg_overwrite_trap`. -/
def hotPathFits (sendSize ithMsize trailer : UInt32) : Bool :=
  decide (sendSize + trailer ≤ ithMsize)

/-- `ipc_kmsg_get`: the number of bytes it asks `kalloc` for, or `MACH_SEND_MSG_TOO_SMALL`. -/
def ipcKmsgGet (dipc : Bool) (size : UInt32) : Option UInt32 :=
  if size < 24 ∨ size &&& 3 ≠ 0 then none
  else if size + maxTrailerSize dipc ≤ ikmSavedMsgSize dipc then
    some (ikmSavedMsgSize dipc + ikmOverhead dipc)
  else some (size + maxTrailerSize dipc + ikmOverhead dipc)

/-- The message and its trailer fit, in exact integers. -/
def Fits (msghSize maxSize trailer : UInt32) : Prop :=
  msghSize.toNat + trailer.toNat ≤ maxSize.toNat

/-- The buffer has room for the message and the largest trailer, in exact integers. -/
def HasRoom (dipc : Bool) (size bytes : UInt32) : Prop :=
  size.toNat + (maxTrailerSize dipc).toNat + (ikmOverhead dipc).toNat ≤ bytes.toNat

theorem toNat_sub_cases (a b : UInt32) : (b.toNat ≤ a.toNat ∧ (a - b).toNat = a.toNat - b.toNat) ∨
      (a.toNat < b.toNat ∧ (a - b).toNat = 2 ^ 32 + a.toNat - b.toNat) := by
  have ha := a.toNat_lt
  have hb := b.toNat_lt
  rw [UInt32.toNat_sub]
  omega

theorem toNat_add_cases (a b : UInt32) :
    (a.toNat + b.toNat < 2 ^ 32 ∧ (a + b).toNat = a.toNat + b.toNat) ∨
      (2 ^ 32 ≤ a.toNat + b.toNat ∧ (a + b).toNat = a.toNat + b.toNat - 2 ^ 32) := by
  have ha := a.toNat_lt
  have hb := b.toNat_lt
  rw [UInt32.toNat_add]
  omega

theorem finishReceiveFits_iff (msghSize maxSize trailer : UInt32) :
    (finishReceiveFits msghSize maxSize trailer = true ↔ Fits msghSize maxSize trailer) ↔
      trailer.toNat ≤ maxSize.toNat ∨ 2 ^ 32 + maxSize.toNat < msghSize.toNat + trailer.toNat := by
  have hs := toNat_sub_cases maxSize trailer
  have hm := msghSize.toNat_lt
  have ht := trailer.toNat_lt
  simp only [finishReceiveFits, Fits, gt_iff_lt, Bool.not_eq_true', decide_eq_false_iff_not,
    UInt32.lt_iff_toNat_lt]
  omega

theorem hotPathFits_iff (msghSize maxSize trailer : UInt32) :
    (hotPathFits msghSize maxSize trailer = true ↔ Fits msghSize maxSize trailer) ↔
      msghSize.toNat + trailer.toNat < 2 ^ 32 ∨
        2 ^ 32 + maxSize.toNat < msghSize.toNat + trailer.toNat := by
  have hs := toNat_add_cases msghSize trailer
  have hm := maxSize.toNat_lt
  simp only [hotPathFits, Fits, decide_eq_true_eq, UInt32.le_iff_toNat_le]
  omega

theorem hasRoom_iff {dipc : Bool} {size bytes : UInt32} (h : ipcKmsgGet dipc size = some bytes) :
    HasRoom dipc size bytes ↔
      size.toNat + (maxTrailerSize dipc).toNat + (ikmOverhead dipc).toNat < 2 ^ 32 := by
  have hconst : (maxTrailerSize dipc).toNat ≤ 24 ∧ (ikmOverhead dipc).toNat ≤ 20 ∧
      (ikmSavedMsgSize dipc).toNat + (ikmOverhead dipc).toNat = 256 := by
    cases dipc <;> decide
  have hadd := toNat_add_cases size (maxTrailerSize dipc)
  have hover := toNat_add_cases (size + maxTrailerSize dipc) (ikmOverhead dipc)
  have hsaved := toNat_add_cases (ikmSavedMsgSize dipc) (ikmOverhead dipc)
  have hlt := bytes.toNat_lt
  unfold ipcKmsgGet at h
  split at h
  · cases h
  · split at h
    · next hle =>
      rw [UInt32.le_iff_toNat_le] at hle
      cases h
      unfold HasRoom
      omega
    · cases h
      unfold HasRoom
      omega

/-- **The two size checks and the allocation**, for all 32-bit sizes: when each of them is what it is in
exact integers. -/
theorem sizes_agree_iff (dipc : Bool) (msghSize maxSize trailer : UInt32) :
    ((finishReceiveFits msghSize maxSize trailer = true ↔ Fits msghSize maxSize trailer) ↔
      trailer.toNat ≤ maxSize.toNat ∨ 2 ^ 32 + maxSize.toNat < msghSize.toNat + trailer.toNat) ∧
    ((hotPathFits msghSize maxSize trailer = true ↔ Fits msghSize maxSize trailer) ↔
      msghSize.toNat + trailer.toNat < 2 ^ 32 ∨
        2 ^ 32 + maxSize.toNat < msghSize.toNat + trailer.toNat) ∧
    ∀ size bytes, ipcKmsgGet dipc size = some bytes → (HasRoom dipc size bytes ↔
        size.toNat + (maxTrailerSize dipc).toNat + (ikmOverhead dipc).toNat < 2 ^ 32) :=
  ⟨finishReceiveFits_iff msghSize maxSize trailer, hotPathFits_iff msghSize maxSize trailer,
    fun _ _ => hasRoom_iff⟩

/-- A buffer that is smaller than the trailer takes a message; and a message whose size is the largest
multiple of 4 gets a buffer of 256 bytes. -/
theorem small_buffer_fits :
    finishReceiveFits 24 0 8 = true ∧ ¬ Fits 24 0 8 ∧ hotPathFits 24 0 8 = false ∧
      ipcKmsgGet false 0xfffffffc = some 256 := by
  refine ⟨by decide, ?_, by decide, by decide⟩
  unfold Fits
  decide

end Osfmk.Bounds
