import Eraft.BasePaging
import Eraft.ParserNumber
import Eraft.ScanCommand

/-! A whole `SCAN`, call after call. One call is a page of the keys from the place on that the pattern gives:
it looks at half as many keys as `COUNT` says, and its cursor counts the keys that match. -/

namespace Eraft

open Paging GlobRegex
open ScanIterator (iterators)

/-- The engine: the keys are in the order of their bytes, and nothing has a NUL. -/
structure ScanStore where
  entries : List (Bytes × Bytes)
  sorted : (entries.map Prod.fst).Pairwise (· < ·)
  nulFree : ∀ e ∈ entries, 0 ∉ e.1 ∧ 0 ∉ e.2

namespace ScanStore

variable (store : ScanStore)

/-- One call with the cursor `c`; `none` if it does not return a page. -/
def call (name : Bytes) (options : List Bytes) (c : Nat) : Option (List (Bytes × Bytes) × Nat) :=
  match scan iterators store.entries (name :: decimal c :: options) with
  | .ok (some page) => some (page.matchKeys, page.cursor)
  | .ok none | .error _ => none

/-- The calls from the cursor 0 on end, and return each key that the pattern accepts once. -/
def ScansOnce (name : Bytes) (options : List Bytes) (pattern : Bytes) : Prop :=
  ∃ out, Loop (store.call name options) 0 out ∧ (out.map Prod.fst).Nodup ∧
    ∀ key, key ∈ out.map Prod.fst ↔ key ∈ store.entries.map Prod.fst ∧ globMatch pattern key = .ok true

/-- The entries from a key on. -/
def since (key : Bytes) : List (Bytes × Bytes) := store.entries.dropWhile (·.1 < key)

end ScanStore

/-- How many keys a call looks at. -/
def pageSize (count : Int) : Nat := ((count + 1) / 2).toNat

/-- What `glob_match` says about an entry; `none` if it does not return. -/
def accepts (pattern : Bytes) (e : Bytes × Bytes) : Option Bool := (globMatch pattern (cString e.1)).toOption

/-- The entries that match. -/
def hits (pattern : Bytes) (l : List (Bytes × Bytes)) : List (Bytes × Bytes) := l.filter (hit (accepts pattern))

/-- What a call returns of an entry. -/
def strings (e : Bytes × Bytes) : Bytes × Bytes := (cString e.1, cString e.2)

variable {pattern name : Bytes} {count : Int} {e : Bytes × Bytes}
  {left passed matchKeys : List (Bytes × Bytes)}
  {i r curNow : Nat}

theorem accepts_eq_some {matched : Bool} :
    accepts pattern e = some matched ↔ globMatch pattern (cString e.1) = .ok matched := by
  unfold accepts
  cases globMatch pattern (cString e.1) <;> simp [Except.toOption]

theorem hits_cons (pattern : Bytes) (e : Bytes × Bytes) (l : List (Bytes × Bytes)) :
    hits pattern (e :: l) = hits pattern [e] ++ hits pattern l := List.filter_append [e] l

theorem hits_singleton {matched : Bool} (h : accepts pattern e = some matched) :
    hits pattern [e] = if matched then [e] else [] := by
  rw [hits, List.filter_singleton, hit, h]
  cases matched <;> rfl

theorem visitKey_cons (h : (accepts pattern e).isSome = true) :
    visitKey iterators pattern ⟨passed, e :: left⟩ = .ok ((hits pattern [e]).map strings) := by
  obtain ⟨matched, hmatched⟩ := Option.isSome_iff_exists.mp h
  have hkey : getValue (iterators.key ⟨passed, e :: left⟩) = .ok e.1 := rfl
  rw [visitKey, hkey, ok_bind, accepts_eq_some.mp hmatched, ok_bind, hits_singleton hmatched]
  cases matched <;> rfl

theorem visitLoop_cons (h : (accepts pattern e).isSome = true) :
    visitLoop iterators pattern count ⟨passed, e :: left⟩ i curNow matchKeys =
      if left ≠ [] ∧ ((i + 2 : Nat) : Int) < count then
        visitLoop iterators pattern count ⟨e :: passed, left⟩ (i + 2) (curNow + (hits pattern [e]).length)
          (matchKeys ++ (hits pattern [e]).map strings)
      else .ok (⟨e :: passed, left⟩, curNow + (hits pattern [e]).length,
        matchKeys ++ (hits pattern [e]).map strings) := by
  have hnext : iterators.next ⟨passed, e :: left⟩ = (decide (left ≠ []), ⟨e :: passed, left⟩) := rfl
  rw [visitLoop, visitKey_cons h, ok_bind, hnext, List.length_map]
  simp only [decide_eq_true_eq]
  rfl

theorem visitLoop_cons_error (h : accepts pattern e = none) :
    ∃ fault, visitLoop iterators pattern count ⟨passed, e :: left⟩ i curNow matchKeys = .error fault := by
  have hkey : getValue (iterators.key ⟨passed, e :: left⟩) = .ok e.1 := rfl
  rw [visitLoop, visitKey, hkey, ok_bind]
  cases hresult : globMatch pattern (cString e.1) with
  | error fault => exact ⟨fault, rfl⟩
  | ok matched => cases h.symm.trans (accepts_eq_some.mpr hresult)

/-- A call looks at `r` keys, or at all there are, and moves `curNow` by those that match. -/
theorem visitLoop_ok (hne : left ≠ []) (hpos : 0 < r) (hr : count ≤ i + 2 * r) (hr' : i + 2 * r < count + 2)
    (hsome : ∀ x ∈ left.take r, (accepts pattern x).isSome = true) :
    ∃ last passed', visitLoop iterators pattern count ⟨passed, left⟩ i curNow matchKeys =
      .ok (⟨last :: passed', left.drop r⟩, curNow + (hits pattern (left.take r)).length,
        matchKeys ++ (hits pattern (left.take r)).map strings) := by
  induction left generalizing passed i r curNow matchKeys with
  | nil => exact absurd rfl hne
  | cons e left ih =>
      obtain ⟨r, rfl⟩ := Nat.exists_eq_succ_of_ne_zero hpos.ne'
      rw [List.take_succ_cons, List.forall_mem_cons] at hsome
      rw [visitLoop_cons hsome.1, List.take_succ_cons, hits_cons pattern e (left.take r),
        List.drop_succ_cons, List.length_append, ← Nat.add_assoc, List.map_append, ← List.append_assoc]
      split_ifs with hmore
      · exact ih (i := i + 2) (r := r) hmore.1 (by omega) (by omega) (by omega) hsome.2
      · have hrest : left.take r = [] ∧ left.drop r = left := by
          by_cases hnil : left = []
          · rw [hnil, List.take_nil, List.drop_nil]
            exact ⟨rfl, rfl⟩
          · have hstop : ¬((i + 2 : Nat) : Int) < count := fun h => hmore ⟨hnil, h⟩
            have hzero : r = 0 := by omega
            rw [hzero]
            exact ⟨rfl, rfl⟩
        refine ⟨e, passed, ?_⟩
        rw [hrest.1, hrest.2]
        simp [hits]

theorem visitLoop_error (hpos : 0 < r) (hr : count ≤ i + 2 * r) (hr' : i + 2 * r < count + 2)
    (hnone : left = [] ∨ ∃ x ∈ left.take r, accepts pattern x = none) :
    ∃ fault, visitLoop iterators pattern count ⟨passed, left⟩ i curNow matchKeys = .error fault := by
  induction left generalizing passed i r curNow matchKeys with
  | nil =>
      rw [visitLoop]
      exact ⟨.outOfBounds, rfl⟩
  | cons e left ih =>
      obtain ⟨r, rfl⟩ := Nat.exists_eq_succ_of_ne_zero hpos.ne'
      obtain ⟨x, hx, hxnone⟩ := hnone.resolve_left (List.cons_ne_nil e left)
      rw [List.take_succ_cons] at hx
      rcases List.mem_cons.mp hx with rfl | hx
      · exact visitLoop_cons_error hxnone
      · cases he : accepts pattern e with
        | none => exact visitLoop_cons_error he
        | some matched =>
            have hmore : left ≠ [] ∧ ((i + 2 : Nat) : Int) < count := by
              refine ⟨List.ne_nil_of_mem (List.mem_of_mem_take hx), ?_⟩
              have hr0 : r ≠ 0 := by
                rintro rfl
                exact List.not_mem_nil hx
              omega
            have hr0 : 0 < r := by omega
            rw [visitLoop_cons (he ▸ rfl), if_pos hmore]
            exact ih (i := i + 2) hr0 (by omega) (by omega) (.inr ⟨x, hx, hxnone⟩)

/-- The keys that are skipped are counted, unless there are not as many. -/
theorem skipLoop_spec (c : Nat) (it : ScanIterator) (curNow : Nat) :
    (∃ passed, (skipLoop iterators c it curNow).1 = ⟨passed, it.left.drop c⟩) ∧
      (c < it.left.length → (skipLoop iterators c it curNow).2 = curNow + c) := by
  induction c generalizing it curNow with
  | zero => exact ⟨⟨it.passed, rfl⟩, fun _ => rfl⟩
  | succ c ih =>
      obtain ⟨passed, left⟩ := it
      cases left with
      | nil => exact ⟨⟨passed, rfl⟩, fun h => absurd h (Nat.not_lt_zero _)⟩
      | cons e left =>
          have hnext : iterators.next ⟨passed, e :: left⟩ = (decide (left ≠ []), ⟨e :: passed, left⟩) := rfl
          rw [skipLoop, hnext, List.drop_succ_cons]
          by_cases hnil : left = []
          · subst hnil
            rw [List.drop_nil]
            exact ⟨⟨e :: passed, rfl⟩, fun h => absurd h (by simp)⟩
          · rw [if_pos (decide_eq_true hnil)]
            obtain ⟨hleft, hcount⟩ := ih ⟨e :: passed, left⟩ (curNow + 1)
            refine ⟨hleft, fun h => ?_⟩
            rw [hcount (Nat.lt_of_succ_lt_succ h)]
            omega

variable {entries w : List (Bytes × Bytes)} {options : List Bytes} {c c' : Nat}

theorem pageSize_spec (hcount : 1 ≤ count) :
    0 < pageSize count ∧ count ≤ 2 * pageSize count ∧ (2 * pageSize count : Int) < count + 2 := by
  unfold pageSize
  omega

theorem scanFrom_nil : scanFrom iterators entries c count [] = .error .outOfBounds := rfl

theorem scanFrom_of_ne (hpattern : pattern ≠ []) : scanFrom iterators entries c count pattern = (do
    let skipped := skipLoop iterators c (ScanIterator.seekHigherEq entries (scanStart pattern)) 0
    let (it, curNow, matchKeys) ← visitLoop iterators pattern count skipped.1 0 skipped.2 []
    return ⟨if it.prev.next.1 then curNow else 0, matchKeys⟩) := by
  show (if pattern = [] then _ else _) = _
  rw [if_neg hpattern, Int.toNat_natCast]
  rfl

/-- The page that a call returns is one of the keys from the place on that the pattern gives. -/
theorem scanFrom_of_some (hpattern : pattern ≠ []) (hcount : 1 ≤ count)
    (h : page (accepts pattern) (pageSize count) (entries.dropWhile (·.1 < scanStart pattern)) c = some (w, c')) :
    scanFrom iterators entries c count pattern = .ok ⟨c', w.map strings⟩ := by
  obtain ⟨hpos, hr, hr'⟩ := pageSize_spec hcount
  generalize hseek : ScanIterator.seekHigherEq entries (scanStart pattern) = it
  have hleft : entries.dropWhile (·.1 < scanStart pattern) = it.left := by rw [← hseek]; rfl
  rw [hleft] at h
  obtain ⟨hlt, hsome, hw, hc'⟩ := page_eq_some_iff.mp h
  obtain ⟨⟨passed, hskip⟩, hskipped⟩ := skipLoop_spec c it 0
  have hne : it.left.drop c ≠ [] := by
    rw [Ne, List.drop_eq_nil_iff]
    omega
  obtain ⟨last, passed', hvisit⟩ := @visitLoop_ok pattern count (it.left.drop c) passed [] 0 (pageSize count) c
    hne hpos (by omega) (by omega) hsome
  have hcur : (skipLoop iterators c it 0).2 = c := (hskipped hlt).trans (Nat.zero_add c)
  rw [scanFrom_of_ne hpattern]
  dsimp only
  rw [hseek, hcur, hskip, hvisit, ok_bind]
  have hhits : hits pattern ((it.left.drop c).take (pageSize count)) = w := hw.symm
  -- going back and forth tells whether the end has been reached
  have hback : (if (ScanIterator.prev ⟨last :: passed', (it.left.drop c).drop (pageSize count)⟩).next.1 = true
      then c + w.length else 0) = c' := by
    have hmore : (ScanIterator.prev ⟨last :: passed', (it.left.drop c).drop (pageSize count)⟩).next.1 =
        decide ((it.left.drop c).drop (pageSize count) ≠ []) := rfl
    rw [hmore, hc']
    simp only [decide_eq_true_eq, List.drop_drop, ne_eq, List.drop_eq_nil_iff, ite_not]
  dsimp only
  rw [hhits, hback]
  rfl

theorem scanFrom_of_none (hcount : 1 ≤ count)
    (h : page (accepts pattern) (pageSize count) (entries.dropWhile (·.1 < scanStart pattern)) c = none) :
    ∃ fault, scanFrom iterators entries c count pattern = .error fault := by
  obtain ⟨hpos, hr, hr'⟩ := pageSize_spec hcount
  by_cases hpattern : pattern = []
  · exact ⟨.outOfBounds, hpattern ▸ scanFrom_nil⟩
  generalize hseek : ScanIterator.seekHigherEq entries (scanStart pattern) = it
  have hleft : entries.dropWhile (·.1 < scanStart pattern) = it.left := by rw [← hseek]; rfl
  rw [hleft] at h
  obtain ⟨⟨passed, hskip⟩, _⟩ := skipLoop_spec c it 0
  have hnone : it.left.drop c = [] ∨
      ∃ x ∈ (it.left.drop c).take (pageSize count), accepts pattern x = none := by
    by_contra hboth
    rw [not_or] at hboth
    have hlt : c < it.left.length := by
      by_contra hge
      exact hboth.1 (List.drop_eq_nil_of_le (Nat.le_of_not_lt hge))
    have hsome : ∀ x ∈ window (pageSize count) it.left c, (accepts pattern x).isSome = true := by
      intro x hx
      rw [Option.isSome_iff_ne_none]
      exact fun hxnone => hboth.2 ⟨x, hx, hxnone⟩
    rw [page, if_pos ⟨hlt, hsome⟩] at h
    cases h
  obtain ⟨fault, hvisit⟩ := @visitLoop_error pattern count (it.left.drop c) passed [] 0 (pageSize count)
    (skipLoop iterators c it 0).2 hpos (by omega) (by omega) hnone
  refine ⟨fault, ?_⟩
  rw [scanFrom_of_ne hpattern]
  dsimp only
  rw [hseek, hskip, hvisit]
  rfl

/-- The options are read two by two. -/
theorem length_parseScanOption {pattern? : Option Bytes} {result : Int × Option Bytes}
    (h : parseScanOption options count pattern? = .ok (some result)) : options.length % 2 = 0 := by
  fun_induction parseScanOption options count pattern? with
  | case1 => rfl
  | case2 | case4 | case6 => cases h
  | case3 count pattern? name _ value rest ih | case5 count pattern? name _ _ value rest ih =>
      have hrest := ih h
      rw [List.length_cons, List.length_cons]
      omega

theorem digitByte_plain {d : Nat} (h : d < 10) :
    isSpace (digitByte d) = false ∧ digitByte d ≠ 45 ∧ digitByte d ≠ 43 := by
  interval_cases d <;> decide

/-- A cursor is read as it was printed. -/
theorem readLong_decimal (n : Nat) (old : Int) : readLong (decimal n) old = n := by
  have hlt : ∀ d ∈ Decimal.digits n, d < 10 := fun _ => Decimal.lt_of_mem_digits
  have hvalue : Decimal.value (((decimal n).takeWhile isDigit).map fun c => c.toNat - 48) 0 = n := by
    have hall : (decimal n).takeWhile isDigit = decimal n :=
      List.takeWhile_eq_self_iff.mpr fun _ hc => isDigit_of_mem_map hlt hc
    rw [hall, decimal, map_digitByte_sub hlt, Decimal.value_digits]
  obtain ⟨d, ds, hdigits⟩ := List.exists_cons_of_ne_nil (@Decimal.digits_ne_nil n)
  have hhead : decimal n = digitByte d :: ds.map digitByte := by
    rw [decimal, hdigits, List.map_cons]
  obtain ⟨hspace, hminus, hplus⟩ := digitByte_plain (hlt d (hdigits ▸ List.mem_cons_self))
  have hdrop : (decimal n).dropWhile isSpace = decimal n := by
    rw [hhead, List.dropWhile_cons_of_neg (Bool.not_eq_true _ ▸ hspace)]
  have hhead' : (decimal n).head? = some (digitByte d) := by rw [hhead, List.head?_cons]
  have hne : decimal n ≠ [] := by
    rw [hhead]
    exact List.cons_ne_nil _ _
  unfold readLong
  simp only [hdrop, hne, hhead', Option.some.injEq, hminus, hplus]
  simpa using hvalue

theorem scan_eq (hoptions : parseScanOption options (-1) none = .ok (some (count, some pattern)))
    (hcount : 1 ≤ count) : scan iterators entries (name :: decimal c :: options) =
      (scanFrom iterators entries c count pattern).map some := by
  have heven : (name :: decimal c :: options).length % 2 = 0 := by
    have h := length_parseScanOption hoptions
    rw [List.length_cons, List.length_cons]
    omega
  rw [scan, if_neg (by omega), hoptions, ok_bind]
  dsimp only
  rw [readLong_decimal, if_neg (by omega)]
  cases scanFrom iterators entries c count pattern <;> rfl

theorem cString_of_not_mem {s : Bytes} (h : 0 ∉ s) : cString s = s := by
  refine List.takeWhile_eq_self_iff.mpr fun c hc => decide_eq_true ?_
  rintro rfl
  exact h hc

namespace ScanStore

variable {store : ScanStore} (hoptions : parseScanOption options (-1) none = .ok (some (count, some pattern)))
  (hcount : 1 ≤ count)

theorem nodup_keys (store : ScanStore) : (store.entries.map Prod.fst).Nodup := by
  refine store.sorted.imp ?_
  rintro a b hlt rfl
  exact List.lt_irrefl a hlt

theorem since_subset {key : Bytes} (h : e ∈ store.since key) : e ∈ store.entries :=
  (List.dropWhile_sublist _).subset h

/-- The entries from a key on are those with a key that is not smaller. -/
theorem not_lt_of_mem_since {key : Bytes} (h : e ∈ store.since key) : ¬e.1 < key := by
  have hsorted : ((store.since key).map Prod.fst).Pairwise (· < ·) :=
    store.sorted.sublist ((List.dropWhile_sublist _).map Prod.fst)
  have hhead := List.head?_dropWhile_not (fun e : Bytes × Bytes => decide (e.1 < key)) store.entries
  rw [← since] at hhead
  cases hsince : store.since key with
  | nil =>
      rw [hsince] at h
      cases h
  | cons y rest =>
      rw [hsince] at h hhead hsorted
      have hy : ¬y.1 < key := of_decide_eq_false hhead
      rcases List.mem_cons.mp h with rfl | hrest
      · exact hy
      · intro hlt
        have hye : y.1 < e.1 := List.rel_of_pairwise_cons hsorted (List.mem_map_of_mem hrest)
        exact hy (List.lt_trans hye hlt)

theorem mem_since {key : Bytes} (he : e ∈ store.entries) (h : ¬e.1 < key) : e ∈ store.since key := by
  have hsplit : store.entries = store.entries.takeWhile (·.1 < key) ++ store.since key :=
    List.takeWhile_append_dropWhile.symm
  rw [hsplit] at he
  rcases List.mem_append.mp he with he | he
  · have hlt := List.mem_takeWhile_imp he
    exact absurd (of_decide_eq_true hlt) h
  · exact he

theorem hit_iff (he : e ∈ store.entries) :
    hit (accepts pattern) e = true ↔ globMatch pattern e.1 = .ok true := by
  rw [hit, beq_iff_eq, accepts_eq_some, cString_of_not_mem (store.nulFree e he).1]

/-- The keys of what was found are the matching keys, each once, if none of them is in front of where the
calls begin. -/
theorem keys_iff_finds {out : List (Bytes × Bytes)}
    (hout : ∀ x ∈ out, x ∈ store.since (scanStart pattern) ∧ hit (accepts pattern) x = true) :
    ((out.map Prod.fst).Nodup ∧
      ∀ key, key ∈ out.map Prod.fst ↔ key ∈ store.entries.map Prod.fst ∧ globMatch pattern key = .ok true) ↔
    (∀ e ∈ store.entries, e.1 < scanStart pattern → globMatch pattern e.1 ≠ .ok true) ∧
      Finds (accepts pattern) (store.since (scanStart pattern)) out := by
  have hkey := List.inj_on_of_nodup_map store.nodup_keys
  have hin : ∀ x ∈ out, x ∈ store.entries := fun x hx => since_subset (hout x hx).1
  constructor
  · rintro ⟨hkeys, hmem⟩
    refine ⟨?_, hkeys.of_map, fun x => ⟨hout x, ?_⟩⟩
    · intro e he hlt haccepted
      obtain ⟨y, hy, hye⟩ := List.mem_map.mp ((hmem e.1).mpr ⟨List.mem_map_of_mem he, haccepted⟩)
      exact not_lt_of_mem_since (hout y hy).1 (hye ▸ hlt)
    · rintro ⟨hx, hhit⟩
      have hentry : x ∈ store.entries := since_subset hx
      obtain ⟨y, hy, hyx⟩ := List.mem_map.mp
        ((hmem x.1).mpr ⟨List.mem_map_of_mem hentry, (hit_iff hentry).mp hhit⟩)
      rwa [← hkey (hin y hy) hentry hyx]
  · rintro ⟨hbelow, hnodup, hmem⟩
    refine ⟨hnodup.map_on fun x hx y hy hxy => hkey (hin x hx) (hin y hy) hxy, fun key => ?_⟩
    constructor
    · intro h
      obtain ⟨x, hx, rfl⟩ := List.mem_map.mp h
      exact ⟨List.mem_map_of_mem (hin x hx), (hit_iff (hin x hx)).mp (hout x hx).2⟩
    · rintro ⟨h, haccepted⟩
      obtain ⟨x, hx, rfl⟩ := List.mem_map.mp h
      have hsince : x ∈ store.since (scanStart pattern) :=
        mem_since hx fun hlt => hbelow x hx hlt haccepted
      exact List.mem_map_of_mem ((hmem x).mpr ⟨hsince, (hit_iff hx).mpr haccepted⟩)

include hoptions hcount

/-- A call is a page. -/
theorem call_eq (hpattern : pattern ≠ []) (c : Nat) : store.call name options c =
    page (accepts pattern) (pageSize count) (store.since (scanStart pattern)) c := by
  rw [call, scan_eq hoptions hcount]
  cases hpage : page (accepts pattern) (pageSize count) (store.since (scanStart pattern)) c with
  | none =>
      obtain ⟨fault, hfault⟩ := scanFrom_of_none hcount hpage
      rw [hfault]
      rfl
  | some result =>
      obtain ⟨w, c'⟩ := result
      have hstrings : w.map strings = w := by
        refine (List.map_congr_left fun e he => ?_).trans (List.map_id w)
        rw [(page_eq_some_iff.mp hpage).2.2.1] at he
        have hmem : e ∈ store.entries :=
          since_subset (List.mem_of_mem_drop (List.mem_of_mem_take (List.mem_of_mem_filter he)))
        obtain ⟨hkey, hvalue⟩ := store.nulFree e hmem
        rw [strings, cString_of_not_mem hkey, cString_of_not_mem hvalue]
        rfl
      rw [scanFrom_of_some hpattern hcount hpage, hstrings]
      rfl

theorem call_empty (hpattern : pattern = []) (c : Nat) : store.call name options c = none := by
  rw [call, scan_eq hoptions hcount, hpattern, scanFrom_nil]
  rfl

/-- **A `SCAN` visits every matching key once** where its calls are pages that fit, the pattern gives the
place of the first matching key, and there is a pattern. -/
theorem scan_visits_once_iff (store : ScanStore) (name : Bytes) : store.ScansOnce name options pattern ↔
    pattern ≠ [] ∧
    (∀ e ∈ store.entries, e.1 < scanStart pattern → globMatch pattern e.1 ≠ .ok true) ∧
    Pageable (accepts pattern) (pageSize count) (store.since (scanStart pattern)) := by
  by_cases hpattern : pattern = []
  · refine iff_of_false ?_ fun h => h.1 hpattern
    rintro ⟨out, hloop, _⟩
    obtain ⟨w, c', hcall, _⟩ := hloop.exists_call
    rw [call_empty hoptions hcount hpattern] at hcall
    cases hcall
  have hcall : store.call name options =
      page (accepts pattern) (pageSize count) (store.since (scanStart pattern)) :=
    funext (call_eq hoptions hcount hpattern)
  have hnodup : (store.since (scanStart pattern)).Nodup :=
    store.nodup_keys.of_map.sublist (List.dropWhile_sublist _)
  rw [ScansOnce, hcall, ← loop_iff_pageable (pageSize_spec hcount).1 hnodup]
  constructor
  · rintro ⟨out, hloop, hkeys⟩
    obtain ⟨hbelow, hfinds⟩ := (keys_iff_finds fun x hx => hloop.mem_page hx).mp hkeys
    exact ⟨hpattern, hbelow, out, hloop, hfinds⟩
  · rintro ⟨_, hbelow, out, hloop, hfinds⟩
    exact ⟨out, hloop, (keys_iff_finds fun x hx => hloop.mem_page hx).mpr ⟨hbelow, hfinds⟩⟩

omit hoptions hcount

/-- Three keys. -/
def letters : ScanStore where
  entries := [([97], [49]), ([98], [50]), ([99], [51])]
  sorted := by decide
  nulFree := by decide

/-- `match * count 2`: every key matches, and each call returns one. -/
theorem scan_visits_once_star :
    parseScanOption [matchWord, [42], countWord, [50]] (-1) none = .ok (some (2, some [42])) ∧
      letters.ScansOnce [] [matchWord, [42], countWord, [50]] [42] := by
  have hoptions : parseScanOption [matchWord, [42], countWord, [50]] (-1) none = .ok (some (2, some [42])) := by
    decide +kernel
  refine ⟨hoptions, (scan_visits_once_iff hoptions (by decide) letters []).mpr ⟨by decide, ?_, ?_⟩⟩
  · decide +kernel
  · unfold Pageable
    decide +kernel

/-- `match a* count 2`: after the key `a` has been returned, the cursor stays at the next key, which does not
match, and the calls never end. -/
theorem not_scan_visits_once :
    parseScanOption [matchWord, [97, 42], countWord, [50]] (-1) none = .ok (some (2, some [97, 42])) ∧
      ¬letters.ScansOnce [] [matchWord, [97, 42], countWord, [50]] [97, 42] := by
  refine ⟨by decide +kernel, ?_⟩
  have hfirst : letters.call [] [matchWord, [97, 42], countWord, [50]] 0 = some ([([97], [49])], 1) := by
    decide +kernel
  have hsecond : letters.call [] [matchWord, [97, 42], countWord, [50]] 1 = some ([], 1) := by decide +kernel
  rintro ⟨out, hloop, _⟩
  obtain ⟨out', _, hrest⟩ := hloop.of_ne_zero hfirst (by decide)
  exact not_loop_of_stuck hsecond (by decide) hrest

end ScanStore

end Eraft
