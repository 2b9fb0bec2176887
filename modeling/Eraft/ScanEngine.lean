import Eraft.ScanCommand

/-! What `SCAN` needs to know of an engine: that its iterators walk over the entries one after the other. Such an
engine gives the same pages as the list of its entries. -/

namespace Eraft

variable {σ ι : Type}

/-- The iterators of an engine walk over its entries in the order of `entries`; `At` says where one of them is.
From the last entry `next` leads to the end without success, and there is no key at the end. -/
structure Walks (iters : Iterators σ ι) (entries : σ → List (Bytes × Bytes)) (At : ι → ScanIterator → Prop) :
    Prop where
  seek : ∀ db key, ∃ it, iters.newWriteIterator db = some it ∧
    At (iters.seekHigherEq it key) (.seekHigherEq (entries db) key)
  next : ∀ it x, At it x → (iters.next it).1 = x.next.1 ∧ At (iters.next it).2 x.next.2
  prev : ∀ it x, At it x → At (iters.prev it) x.prev
  key : ∀ it x, At it x → iters.key it = x.left.head?.map Prod.fst
  readRange : ∀ it x, At it x → iters.readRange it = x.left.head?.map Prod.snd

/-- The list of its entries is such an engine. -/
theorem Walks.list : Walks ScanIterator.iterators id Eq where
  seek db _ := ⟨⟨[], db⟩, rfl, rfl⟩
  next := by rintro it _ rfl; exact ⟨rfl, rfl⟩
  prev := by rintro it _ rfl; rfl
  key := by rintro it _ rfl; rfl
  readRange := by rintro it _ rfl; rfl

/-- Two loops that have failed in the same way, or have come to corresponding places with the same result. -/
inductive Agrees {α : Type} (At : ι → ScanIterator → Prop) :
    Except Fault (ι × α) → Except Fault (ScanIterator × α) → Prop
  | error (fault : Fault) : Agrees At (.error fault) (.error fault)
  | ok {it : ι} {x : ScanIterator} (a : α) (h : At it x) : Agrees At (.ok (it, a)) (.ok (x, a))

theorem Agrees.bind_eq {α β : Type} {At : ι → ScanIterator → Prop} {p : Except Fault (ι × α)}
    {q : Except Fault (ScanIterator × α)} {f : ι × α → Except Fault β} {g : ScanIterator × α → Except Fault β}
    (h : Agrees At p q) (hfg : ∀ it x a, At it x → f (it, a) = g (x, a)) : (p >>= f) = (q >>= g) := by
  cases h with
  | error fault => rfl
  | ok a hat => exact hfg _ _ a hat

namespace Walks

variable {iters : Iterators σ ι} {entries : σ → List (Bytes × Bytes)} {At : ι → ScanIterator → Prop}
  {it : ι} {x : ScanIterator} {pattern : Bytes} {count : Int}

theorem skipLoop (h : Walks iters entries At) (cursor : Nat) (hat : At it x) (curNow : Nat) :
    At (Eraft.skipLoop iters cursor it curNow).1 (Eraft.skipLoop ScanIterator.iterators cursor x curNow).1 ∧
      (Eraft.skipLoop iters cursor it curNow).2 = (Eraft.skipLoop ScanIterator.iterators cursor x curNow).2 := by
  induction cursor generalizing it x curNow with
  | zero => exact ⟨hat, rfl⟩
  | succ cursor ih =>
      obtain ⟨hstatus, hnext⟩ := h.next it x hat
      have hlist : ScanIterator.iterators.next x = x.next := rfl
      rw [Eraft.skipLoop, Eraft.skipLoop, hlist, hstatus]
      split_ifs
      · exact ih hnext (curNow + 1)
      · exact ⟨hnext, rfl⟩

theorem visitKey (h : Walks iters entries At) (hat : At it x) :
    Eraft.visitKey iters pattern it = Eraft.visitKey ScanIterator.iterators pattern x := by
  unfold Eraft.visitKey
  rw [h.key it x hat, h.readRange it x hat]
  rfl

theorem visitLoop (h : Walks iters entries At) (hat : At it x) (i curNow : Nat)
    (matchKeys : List (Bytes × Bytes)) : Agrees At (Eraft.visitLoop iters pattern count it i curNow matchKeys)
      (Eraft.visitLoop ScanIterator.iterators pattern count x i curNow matchKeys) := by
  -- the loop ends because `i` grows up to `count`
  induction hleft : (count - i).toNat using Nat.strong_induction_on generalizing it x i curNow matchKeys with
  | _ left ih =>
      obtain ⟨hstatus, hnext⟩ := h.next it x hat
      have hlist : ScanIterator.iterators.next x = x.next := rfl
      rw [Eraft.visitLoop, Eraft.visitLoop, h.visitKey hat, hlist, hstatus]
      cases Eraft.visitKey ScanIterator.iterators pattern x with
      | error fault => exact .error fault
      | ok found =>
          rw [ok_bind, ok_bind]
          split_ifs with hmore
          · exact ih _ (by omega) hnext (i + 2) _ _ rfl
          · exact .ok _ hnext

theorem scanFrom (h : Walks iters entries At) (db : σ) (cursor : Int) :
    Eraft.scanFrom iters db cursor count pattern =
      Eraft.scanFrom ScanIterator.iterators (entries db) cursor count pattern := by
  obtain ⟨it, hit, hat⟩ := h.seek db (scanStart pattern)
  unfold Eraft.scanFrom
  rw [hit]
  show (if pattern = [] then _ else _) = (if pattern = [] then _ else _)
  split_ifs
  · rfl
  · obtain ⟨hskip, hcount⟩ := h.skipLoop cursor.toNat hat 0
    dsimp only
    rw [hcount]
    refine (h.visitLoop hskip 0 _ []).bind_eq fun it x a hat => ?_
    dsimp only
    rw [(h.next _ _ (h.prev it x hat)).1]
    rfl

/-- **Such an engine gives the pages of its entries.** -/
theorem scan (h : Walks iters entries At) (db : σ) (params : List Bytes) :
    Eraft.scan iters db params = Eraft.scan ScanIterator.iterators (entries db) params := by
  unfold Eraft.scan
  simp only [h.scanFrom]

end Walks

end Eraft
