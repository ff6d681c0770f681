import ChainIndex.Proofs.Listing.Pages

/-!
This module contains the proof that a client who turns a page of a listing and turns back gets the same page
again. One way the page is found by counting from its top and the other way by counting from its bottom, and
the two agree on its records and on the edges that it touches.
-/

namespace ChainIndex

variable {ρ κ : Type} [RecordKey κ] [Record ρ κ]

namespace Page

theorem Answers.eq_slice_of_not_isEnd {l : List ρ} {f : Filter} {count : Int32} {token : Option String}
    {page : Page ρ} (h : Answers l f count token page) (hcount : 0 < count.toInt) (hend : page.isEnd = false) :
    ∃ a, a + count.toInt.natAbs < l.length ∧ page = slice l f a (a + count.toInt.natAbs) := by
  cases h with
  | top =>
    have hne := of_decide_eq_false hend
    have hlt : 0 + count.toInt.natAbs < l.length := by omega
    refine ⟨0, hlt, ?_⟩
    rw [Nat.zero_add] at hlt ⊢
    rw [Nat.min_eq_left (Nat.le_of_lt hlt)]
  | below _ _ i =>
    have hne := of_decide_eq_false hend
    have hlt : i + 1 + count.toInt.natAbs < l.length := by omega
    refine ⟨i + 1, hlt, ?_⟩
    rw [Nat.min_eq_left (Nat.le_of_lt hlt)]
  | bottom => omega
  | above => omega

theorem Answers.eq_slice_of_not_isStart {l : List ρ} {f : Filter} {count : Int32} {token : Option String}
    {page : Page ρ} (h : Answers l f count token page) (hcount : count.toInt < 0) (hstart : page.isStart = false) :
    ∃ a, 0 < a ∧ a + count.toInt.natAbs ≤ l.length ∧ page = slice l f a (a + count.toInt.natAbs) := by
  cases h with
  | bottom =>
    have hne := of_decide_eq_false hstart
    have hb : l.length - count.toInt.natAbs + count.toInt.natAbs = l.length := by omega
    refine ⟨l.length - count.toInt.natAbs, by omega, by omega, ?_⟩
    rw [hb]
  | above _ _ i _ hi =>
    have hlt := (List.getElem?_eq_some_iff.1 hi).1
    have hne := of_decide_eq_false hstart
    have hb : i - count.toInt.natAbs + count.toInt.natAbs = i := by omega
    refine ⟨i - count.toInt.natAbs, by omega, by omega, ?_⟩
    rw [hb]
  | top => omega
  | below => omega

section slice

variable {l : List ρ} {a b : Nat} {r : ρ}

omit [RecordKey κ] in
theorem firstCursor?_slice (f : Filter) (hab : a < b) (ha : l[a]? = some r) :
    (slice l f a b).firstCursor? = some (Cursor.ofRecord r) := by
  unfold firstCursor? slice
  dsimp only
  rw [List.head?_drop, List.getElem?_take_of_lt hab, ha, Option.map_some]

omit [RecordKey κ] in
theorem lastCursor?_slice (f : Filter) (hab : a < b) (hb : l[b - 1]? = some r) :
    (slice l f a b).lastCursor? = some (Cursor.ofRecord r) := by
  have hlt := (List.getElem?_eq_some_iff.1 hb).1
  have hlen : ((l.take b).drop a).length = b - a := by
    rw [List.length_drop, List.length_take]
    omega
  have hlast : a + (b - a - 1) = b - 1 := by omega
  unfold lastCursor? slice
  dsimp only
  rw [List.getLast?_eq_getElem?, hlen, List.getElem?_drop, hlast, List.getElem?_take_of_lt (by omega), hb,
    Option.map_some]

omit [RecordKey κ] in
theorem records_slice_ne_nil (f : Filter) (hab : a < b) (ha : a < l.length) : (slice l f a b).records ≠ [] := by
  apply List.ne_nil_of_length_pos
  unfold slice
  dsimp only
  rw [List.length_drop, List.length_take]
  omega

end slice

end Page

namespace Engine

theorem toInt_neg_of_pos {n : Int32} (hn : 0 < n.toInt) : (-n).toInt = -n.toInt := by
  have hlt := n.toInt_lt
  rw [Int32.toInt_neg]
  apply Int.bmod_eq_of_le
  · omega
  · omega

variable {s : MemoryStore ρ} {f : Filter} {n m : Int32} {a : Nat}

theorem list_down_and_up (hs : s.Consistent) (hf : f.ensureValid = .ok ()) (hn : 0 < n.toInt) (hm : 0 < m.toInt)
    (ha : a + n.toInt.natAbs < (s.matching f).length) :
    ∃ (q : Page ρ) (last first : Cursor κ),
      (Page.slice (s.matching f) f a (a + n.toInt.natAbs)).lastCursor? = some last ∧
      (⟨s, none⟩ : Listing ρ).list f (some last.encode) m = .ok q ∧ q.records ≠ [] ∧
      q.firstCursor? = some first ∧
      (⟨s, none⟩ : Listing ρ).list f (some first.encode) (-n) =
        .ok (Page.slice (s.matching f) f a (a + n.toInt.natAbs)) := by
  have hneg := toInt_neg_of_pos hn
  generalize hb : a + n.toInt.natAbs = b at ha ⊢
  have hlast : b - 1 < (s.matching f).length := by omega
  have hi := List.getElem?_eq_getElem hlast
  have hj := List.getElem?_eq_getElem ha
  have hq := list_below hs hf hm hi (Cursor.decode_encode_ofRecord _)
  have hp := list_above hs hf (by omega : (-n).toInt < 0) hj (Cursor.decode_encode_ofRecord _)
  have hsucc : b - 1 + 1 = b := by omega
  have hback : b - (-n).toInt.natAbs = a := by omega
  rw [hsucc] at hq
  rw [hback] at hp
  refine ⟨_, _, _, Page.lastCursor?_slice f (by omega) hi, hq, ?_, Page.firstCursor?_slice f (by omega) hj, hp⟩
  exact Page.records_slice_ne_nil f (by omega) ha

theorem list_up_and_down (hs : s.Consistent) (hf : f.ensureValid = .ok ()) (hn : 0 < n.toInt) (hm : 0 < m.toInt)
    (hpos : 0 < a) (ha : a + n.toInt.natAbs ≤ (s.matching f).length) :
    ∃ (q : Page ρ) (first last : Cursor κ),
      (Page.slice (s.matching f) f a (a + n.toInt.natAbs)).firstCursor? = some first ∧
      (⟨s, none⟩ : Listing ρ).list f (some first.encode) (-m) = .ok q ∧ q.records ≠ [] ∧
      q.lastCursor? = some last ∧
      (⟨s, none⟩ : Listing ρ).list f (some last.encode) n =
        .ok (Page.slice (s.matching f) f a (a + n.toInt.natAbs)) := by
  have hneg := toInt_neg_of_pos hm
  have hlt : a < (s.matching f).length := by omega
  have hlast : a - 1 < (s.matching f).length := by omega
  have hi := List.getElem?_eq_getElem hlt
  have hj := List.getElem?_eq_getElem hlast
  have hq := list_above hs hf (by omega : (-m).toInt < 0) hi (Cursor.decode_encode_ofRecord _)
  have hp := list_below hs hf hn hj (Cursor.decode_encode_ofRecord _)
  have hsucc : a - 1 + 1 = a := by omega
  rw [hsucc, Nat.min_eq_left ha] at hp
  refine ⟨_, _, _, Page.firstCursor?_slice f (by omega) hi, hq, ?_, Page.lastCursor?_slice f (by omega) hj, hp⟩
  exact Page.records_slice_ne_nil f (by omega) (by omega)

theorem list_turned_back {s : MemoryStore ρ} (hs : s.Reachable) (f : Filter) (token : Option String) {n m : Int32}
    (hn : 0 < n.toInt) (hm : 0 < m.toInt) (p : Page ρ) :
    ((⟨s, none⟩ : Listing ρ).list f token n = .ok p → p.isEnd = false →
      ∃ (q : Page ρ) (last first : Cursor κ), p.lastCursor? = some last ∧
        (⟨s, none⟩ : Listing ρ).list f (some last.encode) m = .ok q ∧ q.records ≠ [] ∧
        q.firstCursor? = some first ∧
        (⟨s, none⟩ : Listing ρ).list f (some first.encode) (-n) = .ok p) ∧
    ((⟨s, none⟩ : Listing ρ).list f token (-n) = .ok p → p.isStart = false →
      ∃ (q : Page ρ) (first last : Cursor κ), p.firstCursor? = some first ∧
        (⟨s, none⟩ : Listing ρ).list f (some first.encode) (-m) = .ok q ∧ q.records ≠ [] ∧
        q.lastCursor? = some last ∧
        (⟨s, none⟩ : Listing ρ).list f (some last.encode) n = .ok p) := by
  have h := hs.consistent
  have hneg := toInt_neg_of_pos hn
  constructor
  · intro hp hend
    obtain ⟨hf, hanswers⟩ := (list_eq_ok_iff h).1 hp
    obtain ⟨a, ha, hpage⟩ := hanswers.eq_slice_of_not_isEnd hn hend
    rw [hpage]
    exact list_down_and_up h hf hn hm ha
  · intro hp hstart
    obtain ⟨hf, hanswers⟩ := (list_eq_ok_iff h).1 hp
    obtain ⟨a, hpos, ha, hpage⟩ := hanswers.eq_slice_of_not_isStart (by omega) hstart
    have hsize : (-n).toInt.natAbs = n.toInt.natAbs := by omega
    rw [hsize] at ha hpage
    rw [hpage]
    exact list_up_and_down h hf hn hm hpos ha

def middlePage : Page Epoch :=
  ⟨[tiedEpoch 300], 3, some ⟨5⟩, some ⟨5⟩, false, false, .all⟩

theorem list_turned_back_tied_epochs :
    (∃ q : Page Epoch, ∃ last first : Cursor UInt64, middlePage.lastCursor? = some last ∧
      (⟨tiedEpochs, none⟩ : Listing Epoch).list .all (some last.encode) 5 = .ok q ∧ q.records ≠ [] ∧
      q.firstCursor? = some first ∧
      (⟨tiedEpochs, none⟩ : Listing Epoch).list .all (some first.encode) (-1) = .ok middlePage) ∧
    (∃ q : Page Epoch, ∃ first last : Cursor UInt64, middlePage.firstCursor? = some first ∧
      (⟨tiedEpochs, none⟩ : Listing Epoch).list .all (some first.encode) (-5) = .ok q ∧ q.records ≠ [] ∧
      q.lastCursor? = some last ∧
      (⟨tiedEpochs, none⟩ : Listing Epoch).list .all (some last.encode) 1 = .ok middlePage) := by
  have h := reachable_tiedEpochs.consistent
  have hm : tiedEpochs.matching .all = [tiedEpoch 7, tiedEpoch 300, tiedEpoch 10] := by decide +kernel
  have htop : (tiedEpochs.matching .all)[0]? = some (tiedEpoch 7) := by
    rw [hm]
    rfl
  have hbottom : (tiedEpochs.matching .all)[2]? = some (tiedEpoch 10) := by
    rw [hm]
    rfl
  have hpage : Page.slice [tiedEpoch 7, tiedEpoch 300, tiedEpoch 10] .all 1 2 = middlePage := by decide +kernel
  have hdown := list_below h rfl (by decide : 0 < (1 : Int32).toInt) htop (Cursor.decode_encode_ofRecord _)
  have hup := list_above h rfl (by decide : (-1 : Int32).toInt < 0) hbottom (Cursor.decode_encode_ofRecord _)
  rw [hm] at hdown hup
  have hdown' := hdown.trans (congrArg _ hpage)
  have hup' := hup.trans (congrArg _ hpage)
  constructor
  · exact (list_turned_back reachable_tiedEpochs .all _ (by decide) (by decide) middlePage).1 hdown' rfl
  · exact (list_turned_back reachable_tiedEpochs .all _ (by decide) (by decide) middlePage).2 hup' rfl

end Engine

end ChainIndex
