import Eraft.CommandExecute
import Eraft.ScanEngine
import Eraft.ScanLoop

/-! The requests on which the executor does not return. Of the four commands only `scan` has such requests:
it reads the pattern that was not given, the last character of an empty pattern, and the key at the end. -/

namespace Eraft

open Paging
open ScanIterator (iterators)

variable {entries : List (Bytes × Bytes)} {cursor count : Int} {pattern : Bytes} {params : List Bytes}

/-- How many keys a call looks at, which is at least one. -/
def visited (count : Int) : Nat := max 1 (pageSize (if count < 0 then 5 else count))

/-- The keys that are left at the cursor: from the place on that the pattern gives. -/
def atCursor (entries : List (Bytes × Bytes)) (cursor : Int) (pattern : Bytes) : List (Bytes × Bytes) :=
  (entries.dropWhile (·.1 < scanStart pattern)).drop cursor.toNat

/-- What stops a call with these options: a pattern that is missing or empty, a cursor at the end, or a key to
look at on which `glob_match` does not return. -/
def PageStops (entries : List (Bytes × Bytes)) (cursor count : Int) (pattern? : Option Bytes) : Prop :=
  ∀ pattern, pattern? = some pattern → pattern ≠ [] → atCursor entries cursor pattern ≠ [] →
    ∃ e ∈ (atCursor entries cursor pattern).take (visited count), accepts pattern e = none

/-- A `SCAN` whose options are accepted, and stop it. -/
def ScanStops (entries : List (Bytes × Bytes)) (params : List Bytes) : Prop :=
  ∃ name cursor options count pattern?, params = name :: cursor :: options ∧
    parseScanOption options (-1) none = .ok (some (count, pattern?)) ∧
    PageStops entries (readLong cursor 0) count pattern?

/-- A call looks at a key before it asks how many it may look at. -/
theorem visitLoop_zero (it : ScanIterator) (curNow : Nat) (matchKeys : List (Bytes × Bytes)) :
    visitLoop iterators pattern 0 it 0 curNow matchKeys =
      visitLoop iterators pattern 1 it 0 curNow matchKeys := by
  unfold visitLoop
  simp

theorem scanFrom_zero :
    scanFrom iterators entries cursor 0 pattern = scanFrom iterators entries cursor 1 pattern := by
  unfold scanFrom
  simp only [visitLoop_zero]

theorem scanFrom_toNat :
    scanFrom iterators entries cursor count pattern = scanFrom iterators entries cursor.toNat count pattern := by
  unfold scanFrom
  rw [Int.toNat_natCast]

/-- A call with a pattern fails on the pattern, or on the keys that it looks at. -/
theorem stops_iff :
    (∃ fault, scanFrom iterators entries cursor (if count < 0 then 5 else count) pattern = .error fault) ↔
      PageStops entries cursor count (some pattern) := by
  by_cases hpattern : pattern = []
  · rw [scanFrom_toNat, hpattern, scanFrom_nil]
    refine ⟨fun _ _ hsome hne => ?_, fun _ => ⟨.outOfBounds, rfl⟩⟩
    exact absurd (Option.some.inj hsome).symm hne
  obtain ⟨n, hn, hsize, hcall⟩ : ∃ n : Int, 1 ≤ n ∧ pageSize n = visited count ∧
      scanFrom iterators entries cursor (if count < 0 then 5 else count) pattern =
        scanFrom iterators entries cursor.toNat n pattern := by
    unfold visited
    by_cases hzero : count = 0
    · subst hzero
      exact ⟨1, le_rfl, rfl, scanFrom_zero.trans scanFrom_toNat⟩
    · refine ⟨if count < 0 then 5 else count, ?_, ?_, scanFrom_toNat⟩
      · split_ifs <;> omega
      · unfold pageSize
        split_ifs <;> omega
  have hstops : PageStops entries cursor count (some pattern) ↔ page (accepts pattern) (pageSize n)
      (entries.dropWhile (·.1 < scanStart pattern)) cursor.toNat = none := by
    rw [page_eq_none_iff, hsize]
    exact ⟨fun hstop => hstop pattern rfl hpattern, fun hstop _ hsome _ => Option.some.inj hsome ▸ hstop⟩
  rw [hcall, hstops]
  constructor
  · rintro ⟨fault, hfault⟩
    rw [Option.eq_none_iff_forall_ne_some]
    intro result hpage
    rw [scanFrom_of_some hpattern hn hpage] at hfault
    cases hfault
  · exact scanFrom_of_none hn

/-- Options that come in pairs are read to the end, or are refused. -/
theorem parseScanOption_returns {options : List Bytes} {pattern? : Option Bytes}
    (h : options.length % 2 = 0) : ∃ result, parseScanOption options count pattern? = .ok result := by
  fun_induction parseScanOption options count pattern? with
  | case1 | case6 => exact ⟨_, rfl⟩
  | case2 | case4 => cases h
  | case3 count pattern? name _ value rest ih | case5 count pattern? name _ _ value rest ih =>
      rw [List.length_cons, List.length_cons] at h
      exact ih (by omega)

theorem not_error {α : Type} (a : α) : ¬∃ fault, (.ok a : Except Fault α) = .error fault :=
  fun ⟨_, h⟩ => nomatch h

theorem scan_error_iff (hlen : 2 ≤ params.length) :
    (∃ fault, scan iterators entries params = .error fault) ↔ ScanStops entries params := by
  obtain ⟨name, cursor, options, rfl⟩ : ∃ name cursor options, params = name :: cursor :: options := by
    rcases params with _ | ⟨name, _ | ⟨cursor, options⟩⟩
    · cases hlen
    · exact absurd hlen (by simp)
    · exact ⟨name, cursor, options, rfl⟩
  have hlen : (name :: cursor :: options).length = options.length + 2 := rfl
  by_cases heven : options.length % 2 = 0
  · obtain ⟨result, hresult⟩ := @parseScanOption_returns (-1) options none heven
    have hstops : ScanStops entries (name :: cursor :: options) ↔
        ∃ count pattern?, result = some (count, pattern?) ∧
          PageStops entries (readLong cursor 0) count pattern? := by
      constructor
      · rintro ⟨_, _, _, count, pattern?, hparams, hoptions, hstop⟩
        cases hparams
        exact ⟨count, pattern?, Except.ok.inj (hresult.symm.trans hoptions), hstop⟩
      · rintro ⟨count, pattern?, rfl, hstop⟩
        exact ⟨name, cursor, options, count, pattern?, rfl, hresult, hstop⟩
    rw [hstops, scan, if_neg (by omega), hresult, ok_bind]
    rcases result with _ | ⟨count, _ | pattern⟩
    · refine iff_of_false (not_error _) ?_
      rintro ⟨_, _, hoptions, _⟩
      cases hoptions
    · refine iff_of_true ⟨.outOfBounds, rfl⟩ ⟨count, none, rfl, ?_⟩
      intro pattern hpattern
      cases hpattern
    · have hpage : (∃ fault, (do
          let page ← scanFrom iterators entries (readLong cursor 0) (if count < 0 then 5 else count) pattern
          return some page) = .error fault) ↔ PageStops entries (readLong cursor 0) count (some pattern) := by
        rw [← stops_iff]
        rcases scanFrom iterators entries (readLong cursor 0) (if count < 0 then 5 else count) pattern with
          fault | page
        · exact iff_of_true ⟨fault, rfl⟩ ⟨fault, rfl⟩
        · exact iff_of_false (not_error _) (not_error _)
      refine hpage.trans ⟨fun hstop => ⟨count, some pattern, rfl, hstop⟩, ?_⟩
      rintro ⟨_, _, hoptions, hstop⟩
      cases hoptions
      exact hstop
  · rw [scan, if_pos (by omega)]
    refine iff_of_false (not_error _) ?_
    rintro ⟨_, _, _, count, pattern?, hparams, hoptions, _⟩
    cases hparams
    exact heven (length_parseScanOption hoptions)

variable {σ ι : Type} {engine : Engine σ ι} {db : σ} {contents : σ → List (Bytes × Bytes)}
  {At : ι → ScanIterator → Prop} {reply : UnboundedBuffer} {written : Bytes}

theorem ScanStops.two_le (h : ScanStops entries params) : 2 ≤ params.length := by
  obtain ⟨name, cursor, options, _, _, rfl, _⟩ := h
  rw [List.length_cons, List.length_cons]
  omega

theorem scan_answer_error_iff : (∃ fault, CommandHandler.scan.answer engine db params = .error fault) ↔
    ∃ fault, scan engine.toIterators db params = .error fault := by
  unfold CommandHandler.answer
  dsimp only
  rcases scan engine.toIterators db params with fault | _ | page
  · exact iff_of_true ⟨fault, rfl⟩ ⟨fault, rfl⟩
  · exact iff_of_false (not_error _) (not_error _)
  · exact iff_of_false (not_error _) (not_error _)

/-- `set`, `get` and `del` return for the numbers of parameters that the table asks for. -/
theorem CommandInfo.answer_error_iff (hwalks : Walks engine.toIterators contents At) {info : CommandInfo}
    (hinfo : info ∈ CommandTable.info)
    (hcount : info.checkParamsCount params.length = true) :
    (∃ fault, info.handler.answer engine db params = .error fault) ↔
      caseFold info.cmd = ascii "scan" ∧ ScanStops (contents db) params := by
  unfold CommandTable.info at hinfo
  simp only [List.mem_cons, List.not_mem_nil, or_false] at hinfo
  unfold CommandInfo.checkParamsCount at hcount
  rcases hinfo with rfl | rfl | rfl | rfl
  · rw [if_pos (by decide), decide_eq_true_eq] at hcount
    obtain ⟨name, key, value, rfl⟩ := List.length_eq_three.mp (Int.ofNat_inj.mp hcount.symm)
    exact iff_of_false (not_error _) fun h => absurd h.1 (by decide)
  · rw [if_pos (by decide), decide_eq_true_eq] at hcount
    obtain ⟨name, key, rfl⟩ := List.length_eq_two.mp (Int.ofNat_inj.mp hcount.symm)
    exact iff_of_false (not_error _) fun h => absurd h.1 (by decide)
  · rw [if_pos (by decide), decide_eq_true_eq] at hcount
    obtain ⟨name, key, rfl⟩ := List.length_eq_two.mp (Int.ofNat_inj.mp hcount.symm)
    exact iff_of_false (not_error _) fun h => absurd h.1 (by decide)
  · have hlen : 2 ≤ params.length := by
      rw [if_neg (by decide), decide_eq_true_eq] at hcount
      dsimp only at hcount
      omega
    rw [scan_answer_error_iff, hwalks.scan, scan_error_iff hlen]
    exact ⟨fun h => ⟨by decide, h⟩, fun h => h.2⟩

theorem answer_error_iff (hwalks : Walks engine.toIterators contents At) (hlen : params.length < 2 ^ 31) :
    (∃ fault, answer engine db params = .error fault) ↔
      (∃ name, params.head? = some name ∧ caseFold name = ascii "scan") ∧
        ScanStops (contents db) params := by
  cases params with
  | nil => exact iff_of_false (not_error _) fun ⟨⟨_, hname, _⟩, _⟩ => nomatch hname
  | cons name args =>
      rw [List.head?_cons]
      simp only [Option.some.injEq, exists_eq_left']
      unfold answer
      dsimp only
      rw [toInt_of_lt hlen]
      cases hinfo : CommandTable.init.getCommandInfo name with
      | none =>
          refine iff_of_false (not_error _) fun ⟨hname, _⟩ => ?_
          cases hinfo.symm.trans (CommandTable.init_scan hname)
      | some info =>
          obtain ⟨hmem, hcmd⟩ := CommandTable.init_spec hinfo
          dsimp only
          by_cases hcount : info.checkParamsCount (name :: args).length = false
          · rw [if_pos hcount]
            refine iff_of_false (not_error _) fun ⟨hname, hstops⟩ => ?_
            -- too few parameters for a command that stops
            have htwo := hstops.two_le
            cases hinfo.symm.trans (CommandTable.init_scan hname)
            unfold CommandInfo.checkParamsCount at hcount
            rw [if_neg (by decide), decide_eq_false_iff_not] at hcount
            dsimp only at hcount
            omega
          · rw [if_neg hcount, CommandInfo.answer_error_iff hwalks hmem (Bool.not_eq_false _ ▸ hcount), hcmd]

theorem call_error {handler : CommandHandler}
    (h : ∃ fault, handler.answer engine db params = .error fault) :
    ∃ fault, handler.call engine db params reply = .error fault := by
  cases handler with
  | set =>
      rcases params with _ | ⟨_, _ | ⟨_, _ | ⟨_, _⟩⟩⟩
      iterate 3 exact ⟨.outOfBounds, rfl⟩
      exact absurd h (not_error _)
  | get =>
      rcases params with _ | ⟨_, _ | ⟨_, _⟩⟩
      iterate 2 exact ⟨.outOfBounds, rfl⟩
      exact absurd h (not_error _)
  | del =>
      rcases params with _ | ⟨_, _ | ⟨_, _⟩⟩
      iterate 2 exact ⟨.outOfBounds, rfl⟩
      exact absurd h (not_error _)
  | scan =>
      obtain ⟨fault, hfault⟩ := scan_answer_error_iff.mp h
      refine ⟨fault, ?_⟩
      show Command.scan engine db params reply = .error fault
      rw [Command.scan, hfault]
      rfl

theorem executeCmd_error (h : ∃ fault, answer engine db params = .error fault) :
    ∃ fault, executeCmd engine db params reply = .error fault := by
  cases params with
  | nil => exact absurd h (not_error _)
  | cons name args =>
      unfold answer at h
      unfold executeCmd
      dsimp only at h ⊢
      cases hinfo : CommandTable.init.getCommandInfo name with
      | none =>
          rw [hinfo] at h
          exact absurd h (not_error _)
      | some info =>
          rw [hinfo] at h
          dsimp only at h ⊢
          by_cases hcount : info.checkParamsCount (toInt (name :: args).length) = false
          · rw [if_pos hcount] at h
            exact absurd h (not_error _)
          · rw [if_neg hcount] at h ⊢
            exact call_error h

/-- **The executor returns, except on a `SCAN` that its pattern, its cursor or a key stops.** -/
theorem executeCmd_stops_iff (hwalks : Walks engine.toIterators contents At) (h : Holds reply written)
    (hlen : params.length < 2 ^ 31) (hfits : ∀ r db', answer engine db params = .ok (r, db') →
      (written ++ r.bytes).length ≤ 2 ^ 62) :
    (∃ fault, executeCmd engine db params reply = .error fault) ↔
      (∃ name, params.head? = some name ∧ caseFold name = ascii "scan") ∧
        ScanStops (contents db) params := by
  rw [← answer_error_iff hwalks hlen]
  constructor
  · rintro ⟨fault, hfault⟩
    cases hans : answer engine db params with
    | error fault' => exact ⟨fault', rfl⟩
    | ok result =>
        obtain ⟨reply', hreply, _⟩ := (Answered.executeCmd h result.1 result.2 hans).2 (hfits _ _ hans)
        cases hreply.symm.trans hfault
  · exact executeCmd_error

/-- There is one key. A `SCAN` returns with the cursor 0 and stops with the cursor 1. -/
theorem executeCmd_stops_iff_one :
    (∃ fault, executeCmd listEngine [([107], [118])] [ascii "SCAN", [49], matchWord, [42]] {} = .error fault) ∧
      ¬∃ fault, executeCmd listEngine [([107], [118])] [ascii "SCAN", [48], matchWord, [42]] {} =
        .error fault := by
  have hfits : ∀ c, c = [49] ∨ c = [48] → ∀ r db',
      answer listEngine [([107], [118])] [ascii "SCAN", c, matchWord, [42]] = .ok (r, db') →
        ([] ++ r.bytes).length ≤ 2 ^ 62 := by
    have hall : ∀ c ∈ [[49], [48]],
        ((answer listEngine [([107], [118])] [ascii "SCAN", c, matchWord, [42]]).toOption.all fun r =>
          decide (([] ++ r.1.bytes).length ≤ 2 ^ 62)) = true := by
      decide +kernel
    intro c hc r db' hans
    have hone := hall c (by simpa using hc)
    rw [hans] at hone
    exact of_decide_eq_true hone
  constructor
  · refine (executeCmd_stops_iff Walks.list Holds.empty (by decide) (hfits _ (.inl rfl))).mpr
      ⟨⟨_, rfl, by decide⟩, _, _, _, -1, some [42], rfl, rfl, ?_⟩
    intro pattern hpattern _ hleft
    cases hpattern
    exact absurd (by decide +kernel) hleft
  · intro hstops
    obtain ⟨_, _, _, _, count, pattern?, hparams, hoptions, hpage⟩ :=
      (executeCmd_stops_iff Walks.list Holds.empty (by decide) (hfits _ (.inr rfl))).mp hstops
    cases hparams
    cases hoptions
    obtain ⟨e, he, hnone⟩ := hpage [42] rfl (by decide) (by decide +kernel)
    have hall : ∀ e ∈ (atCursor [([107], [118])] (readLong [48] 0) [42]).take (visited (-1)),
        accepts [42] e ≠ none := by
      decide +kernel
    exact hall e he hnone

end Eraft
