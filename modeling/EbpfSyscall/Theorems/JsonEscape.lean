import EbpfSyscall.Monitor.JsonEscape

/-!
# The escaped string is read back

What `json_escape` writes is the escaped form of the first bytes of the source, as many as there is room for with a byte to spare. A reader of JSON
strings gets these bytes back.
-/

namespace EbpfSyscall.Monitor

open List

/-! ## A reader of JSON strings -/

/-- Where the reader stands: between characters, after a backslash, or after some digits of `\u`, with their value. -/
inductive ReadState where
  | plain
  | escape
  | unicode (digits value : Nat)

/-- The character of a two-character escape. -/
def shortEscape (c : UInt8) : Option UInt8 :=
  if c = 0x22 ∨ c = 0x5C ∨ c = 0x2F then some c
  else if c = 0x62 then some 0x08
  else if c = 0x66 then some 0x0C
  else if c = 0x6E then some 0x0A
  else if c = 0x72 then some 0x0D
  else if c = 0x74 then some 0x09
  else none

def hexValue (c : UInt8) : Option Nat :=
  if 0x30 ≤ c ∧ c ≤ 0x39 then some (c.toNat - 0x30)
  else if 0x61 ≤ c ∧ c ≤ 0x66 then some (c.toNat - 0x57)
  else if 0x41 ≤ c ∧ c ≤ 0x46 then some (c.toNat - 0x37)
  else none

/-- The UTF-8 form of a code unit that is a character. -/
def utf8 (n : Nat) : Option (List UInt8) :=
  if n < 0x80 then some [.ofNat n]
  else if n < 0x800 then some [.ofNat (0xC0 + n / 64), .ofNat (0x80 + n % 64)]
  else if 0xD800 ≤ n ∧ n < 0xE000 then none
  else some [.ofNat (0xE0 + n / 4096), .ofNat (0x80 + n / 64 % 64), .ofNat (0x80 + n % 64)]

/-- The bytes that the inside of a JSON string stands for, if it is well formed: no quote and no control character, and every escape whole. It
takes no pairs of surrogates, so what it accepts every reader of JSON reads in the same way. -/
def readString : ReadState → List UInt8 → Option (List UInt8)
  | .plain, [] => some []
  | _, [] => none
  | .plain, c :: rest =>
    if c = 0x5C then readString .escape rest
    else if c = 0x22 ∨ c < 0x20 then none
    else (readString .plain rest).map (c :: ·)
  | .escape, c :: rest =>
    if c = 0x75 then readString (.unicode 0 0) rest
    else (shortEscape c).bind fun d => (readString .plain rest).map (d :: ·)
  | .unicode digits value, c :: rest => (hexValue c).bind fun h =>
    if digits = 3 then (utf8 (16 * value + h)).bind fun bytes => (readString .plain rest).map (bytes ++ ·)
    else readString (.unicode (digits + 1) (16 * value + h)) rest

/-! ## The source and its escaped form -/

/-- The source: the bytes before the first NUL or the maximum length. -/
def cString (src : List UInt8) (srcMax : Nat) : List UInt8 := (src.take srcMax).takeWhile (· ≠ 0)

def escaped (c : UInt8) : List UInt8 := (esc c).getD [c]

namespace JsonEscapeAux

variable {c : UInt8}

theorem lt_32_cases (h : c < 0x20) : ∃ n < 32, c = UInt8.ofNat n :=
  ⟨c.toNat, UInt8.lt_iff_toNat_lt.mp h, UInt8.ofNat_toNat.symm⟩

/-- The reader gets a byte back from its escaped form. -/
theorem readString_escaped (hc : c ≠ 0) (rest : List UInt8) : readString .plain (escaped c ++ rest) = (readString .plain rest).map (c :: ·) := by
  by_cases hcontrol : c < 0x20
  · obtain ⟨n, hn, rfl⟩ := lt_32_cases hcontrol
    interval_cases n
    · exact absurd rfl hc
    all_goals rfl
  · by_cases hquote : c = 0x22
    · subst hquote
      rfl
    by_cases hbackslash : c = 0x5C
    · subst hbackslash
      rfl
    have hesc : esc c = none := by
      have hne : ∀ d : UInt8, d < 0x20 → c ≠ d := fun d hd heq => hcontrol (heq ▸ hd)
      simp [esc, hquote, hbackslash, hcontrol, hne]
    rw [escaped, hesc, Option.getD_none, singleton_append, readString, if_neg hbackslash, if_neg (by simp [hquote, hcontrol])]

theorem readString_flatMap {taken : List UInt8} (h : ∀ c ∈ taken, c ≠ 0) : readString .plain (taken.flatMap escaped) = some taken := by
  induction taken with
  | nil => rfl
  | cons c taken ih =>
    obtain ⟨hc, htaken⟩ := forall_mem_cons.mp h
    rw [flatMap_cons, readString_escaped hc, ih htaken, Option.map_some]

theorem zero_notMem_escaped (hc : c ≠ 0) : 0 ∉ escaped c := by
  by_cases hcontrol : c < 0x20
  · obtain ⟨n, hn, rfl⟩ := lt_32_cases hcontrol
    interval_cases n
    · exact absurd rfl hc
    all_goals decide
  · unfold escaped esc
    simp only [if_neg hcontrol]
    split_ifs <;> simp [Ne.symm hc]

/-- Both branches write the escaped form of the byte when it fits. -/
theorem jsonEscapeLoop_cons (hc : c ≠ 0) (dstSz : Nat) (src dst : List UInt8) : jsonEscapeLoop dstSz (c :: src) dst =
      if dstSz ≤ (dst ++ escaped c).length + 1 then dst else jsonEscapeLoop dstSz src (dst ++ escaped c) := by
  rw [jsonEscapeLoop, if_neg hc, escaped]
  cases esc c <;> simp

/-- The loop writes the escaped form of the first bytes of the source, and stops where the next one does not fit. -/
theorem jsonEscapeLoop_spec (dstSz : Nat) (src dst : List UInt8) (hdst : dst = [] ∨ dst.length + 2 ≤ dstSz) :
    ∃ taken left, src.takeWhile (· ≠ 0) = taken ++ left ∧ jsonEscapeLoop dstSz src dst = dst ++ taken.flatMap escaped ∧
      (dst ++ taken.flatMap escaped = [] ∨ (dst ++ taken.flatMap escaped).length + 2 ≤ dstSz) ∧
      ∀ c ∈ left.head?, dstSz < (dst ++ taken.flatMap escaped ++ escaped c).length + 2 := by
  induction src generalizing dst with
  | nil => exact ⟨[], [], rfl, (append_nil dst).symm, by simpa using hdst, nofun⟩
  | cons c src ih =>
    by_cases hzero : c = 0
    · subst hzero
      exact ⟨[], [], rfl, (append_nil dst).symm, by simpa using hdst, nofun⟩
    · rw [jsonEscapeLoop_cons hzero, takeWhile_cons_of_pos (by simpa using hzero)]
      by_cases hfull : dstSz ≤ (dst ++ escaped c).length + 1
      · rw [if_pos hfull]
        refine ⟨[], c :: src.takeWhile (· ≠ 0), rfl, (append_nil dst).symm, by simpa using hdst, fun d hd => ?_⟩
        obtain rfl : c = d := by simpa using hd
        rw [flatMap_nil, append_nil]
        omega
      · rw [if_neg hfull]
        obtain ⟨taken, left, hsplit, hloop, hfits, hleft⟩ := ih (dst ++ escaped c) (Or.inr (by omega))
        have happend : dst ++ (c :: taken).flatMap escaped = dst ++ escaped c ++ taken.flatMap escaped := by
          rw [flatMap_cons, append_assoc]
        rw [← happend] at hloop hfits hleft
        exact ⟨c :: taken, left, by rw [hsplit]; rfl, hloop, hfits, hleft⟩

end JsonEscapeAux

open JsonEscapeAux

/-- For a destination of at least one byte: at most its size is written, with a NUL at the end and nowhere else; before it stand whole escapes; a
reader of JSON strings gets the first bytes of the source back; and all of them when the escaped source has two bytes to spare. -/
theorem jsonEscape_read (src : List UInt8) (srcMax dstSz : Nat) (hdst : 1 ≤ dstSz) :
    ∃ taken, jsonEscape dstSz src srcMax = taken.flatMap escaped ++ [0] ∧ (jsonEscape dstSz src srcMax).length ≤ dstSz ∧
      0 ∉ taken.flatMap escaped ∧ taken <+: cString src srcMax ∧ readString .plain (taken.flatMap escaped) = some taken ∧
      (((cString src srcMax).flatMap escaped).length ≤ dstSz - 2 → taken = cString src srcMax) := by
  obtain ⟨taken, left, hsplit, hloop, hfits, hleft⟩ := jsonEscapeLoop_spec dstSz (src.take srcMax) [] (Or.inl rfl)
  rw [List.nil_append] at hloop hfits hleft
  have hout : jsonEscape dstSz src srcMax = taken.flatMap escaped ++ [0] := by
    rw [jsonEscape, if_neg (by omega), hloop]
  have hnonzero : ∀ c ∈ taken, c ≠ 0 := fun c hc => by
    have hmem : c ∈ (src.take srcMax).takeWhile (· ≠ 0) := hsplit ▸ List.mem_append_left _ hc
    simpa using List.mem_takeWhile_imp hmem
  refine ⟨taken, hout, ?_, ?_, ⟨left, hsplit.symm⟩, readString_flatMap hnonzero, fun hroom => ?_⟩
  · rw [hout, List.length_append, List.length_singleton]
    rcases hfits with hnil | hle
    · rw [hnil]
      exact hdst
    · omega
  · intro hmem
    obtain ⟨c, hc, hzero⟩ := List.mem_flatMap.mp hmem
    exact zero_notMem_escaped (hnonzero c hc) hzero
  · cases left with
    | nil => exact ((List.append_nil taken).symm.trans hsplit.symm)
    | cons c left =>
      have hover := hleft c rfl
      have hwhole : cString src srcMax = taken ++ c :: left := hsplit
      rw [hwhole, List.flatMap_append, List.flatMap_cons, ← List.append_assoc, List.length_append] at hroom
      have hpos : 0 < (taken.flatMap escaped ++ escaped c).length := by
        rw [List.length_append]
        have : 0 < (escaped c).length := by
          unfold escaped esc
          split_ifs <;> simp
        omega
      omega

/-- A quote and a control character in a destination of six bytes: the second escape would not fit. -/
theorem jsonEscape_read_cut : 1 ≤ 6 ∧ jsonEscape 6 [0x22, 0x01, 0x61, 0] 16 = [0x5C, 0x22, 0] ∧
    ∃ taken, jsonEscape 6 [0x22, 0x01, 0x61, 0] 16 = taken.flatMap escaped ++ [0] ∧
      (jsonEscape 6 [0x22, 0x01, 0x61, 0] 16).length ≤ 6 ∧ 0 ∉ taken.flatMap escaped ∧ taken <+: cString [0x22, 0x01, 0x61, 0] 16 ∧
      readString .plain (taken.flatMap escaped) = some taken ∧
      (((cString [0x22, 0x01, 0x61, 0] 16).flatMap escaped).length ≤ 6 - 2 → taken = cString [0x22, 0x01, 0x61, 0] 16) :=
  ⟨by decide, by decide, jsonEscape_read [0x22, 0x01, 0x61, 0] 16 6 (by decide)⟩

end EbpfSyscall.Monitor
