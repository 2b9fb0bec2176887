import Mathlib.Data.List.TakeWhile
import Eraft.ParserResume

/-! What `GetIntUntilCRLF` makes of any bytes. The digits are read as far as they go, and what follows them
decides: nothing, a CR alone, a CR LF, or another byte. A number is taken for complete where nothing
follows it, and a line without a digit is taken for 0. -/

namespace Eraft

variable {bytes rest : Bytes} {ds : List Nat} {ptr k v i : Nat}

/-- The bytes begin with `k` digits, at least one, that denote the `int` `v`, and a CR LF. -/
def NumberAt (bytes : Bytes) (k v : Nat) : Prop :=
  ∃ (ds : List Nat) (rest : Bytes), bytes = ds.map digitByte ++ (crlf ++ rest) ∧ (∀ d ∈ ds, d < 10) ∧
    ds.length = k ∧ 1 ≤ k ∧ Decimal.value ds 0 = v ∧ v < 2 ^ 31

/-- What a reader of such a number should answer, and where it should leave `ptr` and `val`. -/
structure NumberRead (ptr : Nat) (bytes : Bytes) (val : Int) (ret : ParseResult) (ptr' : Nat)
    (val' : Int) : Prop where
  ok_iff : ret = .ok ↔ ∃ k v, NumberAt bytes k v
  number : ∀ k v, NumberAt bytes k v → val' = v ∧ ptr' = ptr + (k + 2) ∧ k + 2 ≤ bytes.length
  wait : ret = .wait → ∃ more ≠ [], ∃ k v, NumberAt (bytes ++ more) k v
  kept : ret ≠ .ok → ptr' = ptr ∧ val' = val

/-- The digits the bytes begin with. -/
def leadingDigits (bytes : Bytes) : List Nat := (bytes.takeWhile isDigit).map fun c => c.toNat - 48

/-- What follows them. -/
def afterDigits (bytes : Bytes) : Bytes := bytes.dropWhile isDigit

theorem digitByte_of_isDigit {c : UInt8} (h : isDigit c = true) : digitByte (c.toNat - 48) = c := by
  have hle : 48 ≤ c.toNat := by
    have h48 : (48 : UInt8) ≤ c := by simp_all [isDigit]
    exact h48
  rw [digitByte, Nat.add_sub_cancel' hle, UInt8.ofNat_toNat]

theorem lt_ten_of_isDigit {c : UInt8} (h : isDigit c = true) : c.toNat - 48 < 10 := by
  have hle : c.toNat ≤ 57 := by
    have h57 : c ≤ 57 := by simp_all [isDigit]
    exact h57
  omega

theorem leadingDigits_lt {d : Nat} (h : d ∈ leadingDigits bytes) : d < 10 := by
  obtain ⟨c, hc, rfl⟩ := List.mem_map.mp h
  exact lt_ten_of_isDigit (List.mem_takeWhile_imp hc)

theorem leadingDigits_append_afterDigits (bytes : Bytes) :
    (leadingDigits bytes).map digitByte ++ afterDigits bytes = bytes := by
  have hdigits : (leadingDigits bytes).map digitByte = bytes.takeWhile isDigit := by
    rw [leadingDigits, List.map_map]
    refine (List.map_congr_left ?_).trans (List.map_id _)
    intro c hc
    exact digitByte_of_isDigit (List.mem_takeWhile_imp hc)
  rw [hdigits, afterDigits, List.takeWhile_append_dropWhile]

theorem afterDigits_cons {c : UInt8} (h : afterDigits bytes = c :: rest) : isDigit c = false := by
  have hhead := List.head?_dropWhile_not isDigit bytes
  rw [← afterDigits, h] at hhead
  exact hhead

theorem isDigit_of_mem_map (hds : ∀ d ∈ ds, d < 10) {c : UInt8} (h : c ∈ ds.map digitByte) :
    isDigit c = true := by
  obtain ⟨d, hd, rfl⟩ := List.mem_map.mp h
  exact isDigit_digitByte (hds d hd)

theorem map_digitByte_sub (hds : ∀ d ∈ ds, d < 10) :
    (ds.map digitByte).map (fun c => c.toNat - 48) = ds := by
  rw [List.map_map]
  refine (List.map_congr_left ?_).trans (List.map_id _)
  intro d hd
  simp [toNat_digitByte (hds d hd)]

theorem leadingDigits_cr (hds : ∀ d ∈ ds, d < 10) :
    leadingDigits (ds.map digitByte ++ 13 :: rest) = ds := by
  have hcr : (13 :: rest : Bytes).takeWhile isDigit = [] := rfl
  rw [leadingDigits, List.takeWhile_append_of_pos (fun _ => isDigit_of_mem_map hds), hcr, List.append_nil,
    map_digitByte_sub hds]

theorem afterDigits_cr (hds : ∀ d ∈ ds, d < 10) :
    afterDigits (ds.map digitByte ++ 13 :: rest) = 13 :: rest := by
  rw [afterDigits, List.dropWhile_append_of_pos (fun _ => isDigit_of_mem_map hds)]
  rfl

/-- The digits of such a number are all the digits there are. -/
theorem numberAt_iff : NumberAt bytes k v ↔ crlf <+: afterDigits bytes ∧ (leadingDigits bytes).length = k ∧
    1 ≤ k ∧ Decimal.value (leadingDigits bytes) 0 = v ∧ v < 2 ^ 31 := by
  constructor
  · rintro ⟨ds, rest, rfl, hds, hk, hpos, hv, hlt⟩
    rw [show crlf ++ rest = 13 :: 10 :: rest from rfl, leadingDigits_cr hds, afterDigits_cr hds]
    exact ⟨⟨rest, rfl⟩, hk, hpos, hv, hlt⟩
  · rintro ⟨⟨rest, hrest⟩, hk, hpos, hv, hlt⟩
    refine ⟨leadingDigits bytes, rest, ?_, fun _ => leadingDigits_lt, hk, hpos, hv, hlt⟩
    rw [hrest, leadingDigits_append_afterDigits]

theorem NumberAt.length (h : NumberAt bytes k v) : k + 2 ≤ bytes.length := by
  obtain ⟨ds, rest, rfl, _, rfl, _⟩ := h
  simp only [List.length_append, List.length_map, crlf, List.length_cons, List.length_nil]
  omega

theorem numberAt_of_append {more : Bytes} (h : bytes ++ more = ds.map digitByte ++ crlf)
    (hds : ∀ d ∈ ds, d < 10) (hne : ds ≠ []) (hv : Decimal.value ds 0 < 2 ^ 31) :
    ∃ k v, NumberAt (bytes ++ more) k v :=
  ⟨ds.length, Decimal.value ds 0, ds, [], h, hds, rfl, List.length_pos_of_ne_nil hne, rfl, hv⟩

/-- Bytes that are not a number yet can become one if there is nothing but digits, or a CR after some. -/
theorem unfinished_iff (hnone : ¬∃ k v, NumberAt bytes k v)
    (hv : Decimal.value (leadingDigits bytes) 0 < 2 ^ 31) :
    (∃ more ≠ [], ∃ k v, NumberAt (bytes ++ more) k v) ↔
      afterDigits bytes = [] ∨ (afterDigits bytes = [13] ∧ leadingDigits bytes ≠ []) := by
  constructor
  · rintro ⟨more, _, k, v, ds, rest, heq, hds, rfl, hpos, hvalue⟩
    rcases append_cut heq with ⟨_, e, he, _⟩ | ⟨_, e, hne, rfl, he⟩
    · left
      rw [afterDigits, List.dropWhile_eq_nil_iff]
      intro c hc
      apply isDigit_of_mem_map hds
      rw [he]
      exact List.mem_append_left e hc
    · obtain ⟨c, e, rfl⟩ := List.exists_cons_of_ne_nil hne
      obtain ⟨rfl, hlf⟩ := List.cons.inj he
      cases e with
      | nil =>
          rw [afterDigits_cr hds, leadingDigits_cr hds]
          exact .inr ⟨rfl, List.ne_nil_of_length_pos hpos⟩
      | cons c e =>
          obtain ⟨rfl, _⟩ := List.cons.inj hlf
          exact absurd ⟨ds.length, v, ds, e, rfl, hds, rfl, hpos, hvalue⟩ hnone
  · have hdigits := leadingDigits_append_afterDigits bytes
    rintro (hafter | ⟨hafter, hne⟩) <;> rw [hafter] at hdigits
    · rw [List.append_nil] at hdigits
      by_cases hne : leadingDigits bytes = []
      · rw [hne] at hdigits
        refine ⟨[48, 13, 10], by simp, 1, 0, [0], [], ?_, by simp, rfl, le_rfl, rfl, by decide⟩
        rw [← hdigits]
        rfl
      · refine ⟨crlf, by simp [crlf], ?_⟩
        refine numberAt_of_append ?_ (fun _ => leadingDigits_lt) hne hv
        rw [hdigits]
    · refine ⟨[10], by simp, ?_⟩
      refine numberAt_of_append ?_ (fun _ => leadingDigits_lt) hne hv
      calc bytes ++ [10] = ((leadingDigits bytes).map digitByte ++ [13]) ++ [10] := by rw [hdigits]
        _ = (leadingDigits bytes).map digitByte ++ crlf := List.append_assoc _ _ _

/-- A number that does not fit makes the `int` overflow, whatever follows its digits. -/
theorem intLoop_overflow (i : Nat) (hds : ∀ d ∈ ds, d < 10) (hlt : v < 2 ^ 31)
    (hv : 2 ^ 31 ≤ Decimal.value ds v) : intLoop (ds.map digitByte ++ rest) i v = .error .overflow := by
  induction ds generalizing i v with
  | nil => exact absurd (hv.trans_lt hlt) (lt_irrefl _)
  | cons d ds ih =>
      obtain ⟨hd, hds⟩ := List.forall_mem_cons.mp hds
      rw [List.map_cons, List.cons_append, intLoop_digit i hd]
      rcases Nat.lt_or_ge (v * 10 + d) (2 ^ 31) with hlt | hge
      · rw [if_pos hlt]
        exact ih (i + 1) hds hlt hv
      · exact if_neg (Nat.not_lt.mpr hge)

theorem intLoop_leading (h : Decimal.value (leadingDigits bytes) 0 < 2 ^ 31) :
    intLoop bytes 0 0 = intLoop (afterDigits bytes) (leadingDigits bytes).length
      (Decimal.value (leadingDigits bytes) 0 : Nat) := by
  have hloop := @intLoop_digits (afterDigits bytes) _ _ 0 (fun _ => leadingDigits_lt) h
  rw [leadingDigits_append_afterDigits, Nat.zero_add] at hloop
  exact hloop

theorem intLoop_crlf {value : Int} (h : crlf <+: rest) : intLoop rest i value = .ok (.ok, i, value) := by
  obtain ⟨rest, rfl⟩ := h
  rfl

/-- What follows the digits is a CR alone, or a byte that ends the attempt. -/
theorem intLoop_rest {value : Int} (h : afterDigits bytes ≠ []) (hcrlf : ¬crlf <+: afterDigits bytes) :
    intLoop (afterDigits bytes) i value =
      .ok (if afterDigits bytes = [13] then .wait else .error, i, value) := by
  obtain ⟨c, rest, hafter⟩ := List.exists_cons_of_ne_nil h
  have hdigit : ¬isDigit c = true := by simp [afterDigits_cons hafter]
  rw [hafter] at hcrlf ⊢
  rw [intLoop, if_neg hdigit]
  cases rest with
  | nil => by_cases hc : c = 13 <;> simp [hc]
  | cons c' rest =>
      have hother : c ≠ 13 ∨ (c' :: rest).head?.any (· ≠ 10) := by
        by_contra hboth
        apply hcrlf
        simp_all [crlf]
      rw [if_pos hother, if_neg (by simp)]

theorem getIntUntilCRLF_of_ok {val value : Int} (hlen : ¬bytes.length < 3)
    (h : intLoop bytes 0 0 = .ok (.ok, i, value)) :
    getIntUntilCRLF ptr bytes val = .ok (.ok, ptr + i + 2, value) := by
  rw [getIntUntilCRLF, if_neg hlen, h]
  rfl

theorem getIntUntilCRLF_of_ne_ok {val value : Int} {ret : ParseResult} (hlen : ¬bytes.length < 3)
    (hret : ret ≠ .ok) (h : intLoop bytes 0 0 = .ok (ret, i, value)) :
    getIntUntilCRLF ptr bytes val = .ok (ret, ptr, val) := by
  rw [getIntUntilCRLF, if_neg hlen, h, ok_bind]
  exact congrArg Except.ok (if_neg hret)

theorem crlf_isPrefix_iff (h : crlf <+: afterDigits bytes) : crlf <+: bytes ↔ leadingDigits bytes = [] := by
  have hdigits := leadingDigits_append_afterDigits bytes
  constructor
  · rintro ⟨rest, rfl⟩
    rfl
  · intro hnil
    rw [hnil] at hdigits
    rwa [← hdigits]

theorem isPrefix_afterDigits (h : crlf <+: bytes) : crlf <+: afterDigits bytes := by
  obtain ⟨rest, rfl⟩ := h
  exact ⟨rest, rfl⟩

/-- Where the reader can be relied on: fewer than three bytes that can still become a number; or more,
whose digits fit an `int` and are followed by something, unless they begin with the end of the line. -/
def Delimited (bytes : Bytes) : Prop :=
  if bytes.length < 3 then
    afterDigits bytes = [] ∨ (afterDigits bytes = [13] ∧ leadingDigits bytes ≠ [])
  else Decimal.value (leadingDigits bytes) 0 < 2 ^ 31 ∧ afterDigits bytes ≠ [] ∧ ¬crlf <+: bytes

/-- Fewer than three bytes are always waited with. -/
theorem numberRead_short_iff {val : Int} (hlen : bytes.length < 3) :
    NumberRead ptr bytes val .wait ptr val ↔
      afterDigits bytes = [] ∨ (afterDigits bytes = [13] ∧ leadingDigits bytes ≠ []) := by
  have hlength := congrArg List.length (leadingDigits_append_afterDigits bytes)
  rw [List.length_append, List.length_map] at hlength
  have hnone : ¬∃ k v, NumberAt bytes k v := by
    rintro ⟨k, v, h⟩
    have hle := h.length
    obtain ⟨_, _, _, _, _, hpos, _⟩ := h
    omega
  have hv : Decimal.value (leadingDigits bytes) 0 < 2 ^ 31 := by
    refine (Decimal.value_lt fun _ => leadingDigits_lt).trans_le ?_
    calc (0 + 1) * 10 ^ (leadingDigits bytes).length ≤ (0 + 1) * 10 ^ 2 :=
          Nat.mul_le_mul_left _ (Nat.pow_le_pow_right (by decide) (by omega))
      _ ≤ 2 ^ 31 := by decide
  rw [← unfinished_iff hnone hv]
  constructor
  · intro h
    exact h.wait rfl
  · intro h
    exact {
      ok_iff := by simp [hnone]
      number := fun k v hkv => absurd ⟨k, v, hkv⟩ hnone
      wait := fun _ => h
      kept := fun _ => ⟨rfl, rfl⟩ }

/-- Where a CR LF follows the digits, the answer is right if there is a digit. -/
theorem numberRead_crlf_iff {val : Int} (h : crlf <+: afterDigits bytes)
    (hv : Decimal.value (leadingDigits bytes) 0 < 2 ^ 31) :
    NumberRead ptr bytes val .ok (ptr + (leadingDigits bytes).length + 2)
      (Decimal.value (leadingDigits bytes) 0 : Nat) ↔ leadingDigits bytes ≠ [] := by
  constructor
  · intro hread hnil
    obtain ⟨k, v, hkv⟩ := hread.ok_iff.mp rfl
    obtain ⟨_, hk, hpos, _⟩ := numberAt_iff.mp hkv
    rw [hnil, List.length_nil] at hk
    omega
  · intro hne
    have hkv : NumberAt bytes (leadingDigits bytes).length (Decimal.value (leadingDigits bytes) 0) :=
      numberAt_iff.mpr ⟨h, rfl, List.length_pos_of_ne_nil hne, rfl, hv⟩
    refine ⟨⟨fun _ => ⟨_, _, hkv⟩, fun _ => rfl⟩, ?_, by simp, by simp⟩
    intro k v hkv'
    obtain ⟨_, rfl, _, rfl, _⟩ := numberAt_iff.mp hkv'
    exact ⟨rfl, by omega, hkv.length⟩

/-- Where another byte follows the digits, or a CR alone, the answer is right. -/
theorem numberRead_rest {val : Int} (hlen : ¬bytes.length < 3) (hcrlf : ¬crlf <+: afterDigits bytes)
    (hv : Decimal.value (leadingDigits bytes) 0 < 2 ^ 31) :
    NumberRead ptr bytes val (if afterDigits bytes = [13] then .wait else .error) ptr val := by
  have hnone : ¬∃ k v, NumberAt bytes k v := by
    rintro ⟨k, v, h⟩
    exact hcrlf (numberAt_iff.mp h).1
  refine ⟨?_, fun k v hkv => absurd ⟨k, v, hkv⟩ hnone, ?_, fun _ => ⟨rfl, rfl⟩⟩
  · split_ifs <;> simp [hnone]
  · intro hwait
    have hcr : afterDigits bytes = [13] := by
      by_contra hcr
      rw [if_neg hcr] at hwait
      cases hwait
    refine (unfinished_iff hnone hv).mpr (.inr ⟨hcr, ?_⟩)
    intro hnil
    have hdigits := leadingDigits_append_afterDigits bytes
    rw [hnil, hcr] at hdigits
    rw [← hdigits] at hlen
    exact hlen (by decide)

/-- The answer is there and is the right one. -/
def ReadsExactly (ptr : Nat) (bytes : Bytes) (val : Int) : Prop :=
  ∃ ret ptr' val', getIntUntilCRLF ptr bytes val = .ok (ret, ptr', val') ∧
    NumberRead ptr bytes val ret ptr' val'

theorem readsExactly_iff {val val' : Int} {ret : ParseResult} {ptr' : Nat}
    (h : getIntUntilCRLF ptr bytes val = .ok (ret, ptr', val')) :
    ReadsExactly ptr bytes val ↔ NumberRead ptr bytes val ret ptr' val' := by
  constructor
  · rintro ⟨ret, ptr', val', heq, hread⟩
    cases h.symm.trans heq
    exact hread
  · intro hread
    exact ⟨ret, ptr', val', h, hread⟩

/-- **A number is read exactly, and in bounds**, from delimited bytes and from no others. -/
theorem getIntUntilCRLF_exact_iff (ptr : Nat) (bytes : Bytes) (val : Int) :
    ReadsExactly ptr bytes val ↔ Delimited bytes := by
  unfold Delimited
  split_ifs with hlen
  · have hwait : getIntUntilCRLF ptr bytes val = .ok (.wait, ptr, val) := if_pos hlen
    rw [readsExactly_iff hwait, numberRead_short_iff hlen]
  rcases Nat.lt_or_ge (Decimal.value (leadingDigits bytes) 0) (2 ^ 31) with hv | hv
  · have hloop := intLoop_leading hv
    by_cases hcrlf : crlf <+: afterDigits bytes
    · rw [intLoop_crlf hcrlf] at hloop
      rw [readsExactly_iff (getIntUntilCRLF_of_ok hlen hloop), numberRead_crlf_iff hcrlf hv,
        crlf_isPrefix_iff hcrlf]
      have hne : afterDigits bytes ≠ [] := by
        rintro hnil
        simp [hnil, crlf] at hcrlf
      exact ⟨fun h => ⟨hv, hne, h⟩, fun h => h.2.2⟩
    · by_cases hnil : afterDigits bytes = []
      · -- nothing follows the digits, and the loop ends as if their line did
        rw [hnil] at hloop
        rw [readsExactly_iff (getIntUntilCRLF_of_ok hlen hloop)]
        refine ⟨fun h => ?_, fun h => absurd hnil h.2.1⟩
        obtain ⟨k, v, hkv⟩ := h.ok_iff.mp rfl
        exact absurd (numberAt_iff.mp hkv).1 hcrlf
      · rw [intLoop_rest hnil hcrlf] at hloop
        have hret : (if afterDigits bytes = [13] then ParseResult.wait else .error) ≠ .ok := by
          split_ifs <;> decide
        rw [readsExactly_iff (getIntUntilCRLF_of_ne_ok hlen hret hloop)]
        exact ⟨fun _ => ⟨hv, hnil, fun h => hcrlf (isPrefix_afterDigits h)⟩,
          fun _ => numberRead_rest hlen hcrlf hv⟩
  · have hloop := @intLoop_overflow (afterDigits bytes) _ 0 0 (fun _ => leadingDigits_lt) (by decide) hv
    rw [leadingDigits_append_afterDigits] at hloop
    have hfault : getIntUntilCRLF ptr bytes val = .error .overflow := by
      rw [getIntUntilCRLF, if_neg hlen]
      exact congrArg (· >>= _) hloop
    refine ⟨?_, fun h => absurd h.1 (Nat.not_lt.mpr hv)⟩
    rintro ⟨ret, ptr', val', heq, _⟩
    cases hfault.symm.trans heq

/-- Three digits and nothing more are taken for a complete number, and `ptr` moves two bytes past them. -/
theorem not_getIntUntilCRLF_exact :
    getIntUntilCRLF 0 [49, 50, 51] 0 = .ok (.ok, 5, 123) ∧ ¬ReadsExactly 0 [49, 50, 51] 0 := by
  have hread : getIntUntilCRLF 0 [49, 50, 51] 0 = .ok (.ok, 5, 123) := by decide +kernel
  refine ⟨hread, ?_⟩
  rw [readsExactly_iff hread]
  intro h
  obtain ⟨k, v, hkv⟩ := h.ok_iff.mp rfl
  have hcrlf : ¬crlf <+: afterDigits [49, 50, 51] := by decide
  exact hcrlf (numberAt_iff.mp hkv).1

end Eraft
