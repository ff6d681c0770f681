import ChainIndex.Http.Server
import ChainIndex.Proofs.Listing.Refusals
import Mathlib.Data.List.TakeWhile

/-!
This module contains the errors that a request for a page is answered with. A faulty filter comes before all of
them, since the text of the filter is read before the listing is asked.
-/

namespace ChainIndex

namespace Filter

inductive Unusable (raw : String) : FilterFault → Prop where
  | unreadable (h : Json.parse? raw = none) : Unusable raw .notJson
  | misshapen {j : Json} {misfit : Misfit} (hj : Json.parse? raw = some j) (h : ofJson j = .error misfit) :
    Unusable raw .notJson
  | misnamed {j : Json} {f : Filter} {c : Condition} (hj : Json.parse? raw = some j) (hf : ofJson j = .ok f)
    (h : f.FirstMisnamed c) : Unusable raw (.badField c.field)

theorem skip_ne_nil_iff {cs : List Char} : Blank.skip cs ≠ [] ↔ ∃ c ∈ cs, Blank.isBlank c = false := by
  unfold Blank.skip
  rw [ne_eq, List.dropWhile_eq_nil_iff]
  simp

theorem ofText_of_unusable {raw : String} {fault : FilterFault} (hskip : Blank.skip raw.toList ≠ [])
    (h : Unusable raw fault) : ofText (some raw) = .error fault := by
  unfold ofText
  cases h with
  | unreadable h => simp only [if_neg hskip, h]
  | misshapen hj h => simp only [if_neg hskip, hj, h]
  | misnamed hj hf h =>
    have hvalidate := validate_eq_error_iff.2 ⟨_, h, rfl⟩
    simp only [if_neg hskip, hj, hf, hvalidate]
    rfl

theorem unusable_of_ofText {raw : String} {fault : FilterFault} (h : ofText (some raw) = .error fault) :
    Blank.skip raw.toList ≠ [] ∧ Unusable raw fault := by
  unfold ofText at h
  dsimp only at h
  split at h
  · cases h
  · next hskip =>
    refine ⟨hskip, ?_⟩
    split at h
    · next hj =>
      cases h
      exact .unreadable hj
    · next j hj =>
      split at h
      · next misfit hmisfit =>
        cases h
        exact .misshapen hj hmisfit
      · next f hf =>
        cases hvalidate : f.validate with
        | error fault' =>
          rw [hvalidate] at h
          cases h
          obtain ⟨c, hc, rfl⟩ := validate_eq_error_iff.1 hvalidate
          exact .misnamed hj hf hc
        | ok _ =>
          rw [hvalidate] at h
          cases h

end Filter

namespace ListQuery

def Unusable (q : ListQuery) (fault : FilterFault) : Prop :=
  ∃ raw, q.filter = some raw ∧ (∃ c ∈ raw.toList, Blank.isBlank c = false) ∧ Filter.Unusable raw fault

theorem ofText_filter_eq_error_iff {q : ListQuery} {fault : FilterFault} :
    Filter.ofText q.filter = .error fault ↔ q.Unusable fault := by
  unfold Unusable
  constructor
  · intro h
    cases hfilter : q.filter with
    | none =>
      rw [hfilter] at h
      cases h
    | some raw =>
      rw [hfilter] at h
      obtain ⟨hskip, hunusable⟩ := Filter.unusable_of_ofText h
      exact ⟨raw, rfl, Filter.skip_ne_nil_iff.1 hskip, hunusable⟩
  · rintro ⟨raw, hfilter, hskip, h⟩
    rw [hfilter]
    exact Filter.ofText_of_unusable (Filter.skip_ne_nil_iff.2 hskip) h

end ListQuery

namespace Server

variable {server : Server} {kind : RecordKind} {query : ListQuery}

theorem listPage_of_unusable {fault : FilterFault} (h : query.Unusable fault) :
    server.listPage kind query = .error (.invalidFilter fault.message) := by
  unfold listPage
  rw [ListQuery.ofText_filter_eq_error_iff.2 h]
  rfl

theorem exists_listPage_eq_list (h : ∀ fault, ¬query.Unusable fault) :
    ∃ f, Filter.ofText query.filter = .ok f ∧ server.listPage kind query =
      (server.service.listing kind).list f query.cursor (query.countWithin server.limits) := by
  cases hfilter : Filter.ofText query.filter with
  | error fault => exact absurd (ListQuery.ofText_filter_eq_error_iff.1 hfilter) (h fault)
  | ok f =>
    refine ⟨f, rfl, ?_⟩
    unfold listPage
    rw [hfilter]
    rfl

theorem answer_listing {q : List Char} (hq : ListQuery.read? q = some query) (now : Timestamp) :
    server.answer now (.listing kind) q = (.ofResult ((server.listPage kind query).map Page.body), server) := by
  unfold answer
  rw [hq]

/--
A listing refuses what it has a reason to refuse, in the order of the reasons, and answers everything else with a
page. A request for a page is refused for its filter first, and changes nothing.
-/
theorem refusals_exact (kind : RecordKind) :
    (∀ g : Listing kind.Entry, g.store.Reachable → ∀ (f : Filter) (token : Option String) (count : Int32),
      (∀ e, g.list f token count = .error e ↔ Engine.Refused g.store f count token e) ∧
      ((∃ page, g.list f token count = .ok page) ↔ Engine.Admitted g.store f count token)) ∧
    ∀ (server : Server) (query : ListQuery),
      (∀ fault, query.Unusable fault → server.listPage kind query = .error (.invalidFilter fault.message)) ∧
      ((∀ fault, ¬query.Unusable fault) → ∃ f, Filter.ofText query.filter = .ok f ∧
        server.listPage kind query =
          (server.service.listing kind).list f query.cursor (query.countWithin server.limits)) ∧
      ∀ (now : Timestamp) (q : List Char), ListQuery.read? q = some query →
        server.answer now (.listing kind) q =
          (.ofResult ((server.listPage kind query).map Page.body), server) ∧
        ∀ fault, query.Unusable fault →
          server.answer now (.listing kind) q =
            (⟨400, some (IndexError.invalidFilter fault.message).body⟩, server) := by
  constructor
  · intro g hg f token count
    have hs := hg.consistent
    exact ⟨fun e => Engine.list_eq_error_iff hs, Engine.exists_page_iff hs⟩
  · intro server query
    refine ⟨fun fault h => listPage_of_unusable h, exists_listPage_eq_list, ?_⟩
    intro now q hq
    refine ⟨answer_listing hq now, ?_⟩
    intro fault h
    rw [answer_listing hq now, listPage_of_unusable h]
    rfl

def absentEpoch : Cursor UInt64 :=
  ⟨.epoch, 8⟩

theorem refusals_exact_absent_epoch :
    Engine.tiedEpochs.Reachable ∧
    (⟨Engine.tiedEpochs, some (.empty 1 2)⟩ : Listing Epoch).list .all (some absentEpoch.encode) 1 =
      .error (.recordNotFound .epoch (RecordKey.encode absentEpoch.key)) ∧
    ListQuery.read? "count=0&filter=[".toList = some ⟨none, some 0, some "["⟩ ∧
    (⟨.create 6 none, ⟨20, 100⟩⟩ : Server).answer Engine.noon (.listing .epoch) "count=0&filter=[".toList =
      (⟨400, some (IndexError.invalidFilter "filter is not valid JSON").body⟩, ⟨.create 6 none, ⟨20, 100⟩⟩) := by
  obtain ⟨hlist, hanswer⟩ := refusals_exact .epoch
  have hread : ListQuery.read? "count=0&filter=[".toList = some ⟨none, some 0, some "["⟩ := by decide +kernel
  refine ⟨Engine.reachable_tiedEpochs, ?_, hread, ?_⟩
  · have hcount : (1 : Int32).toInt ≠ 0 := by decide
    have hcursor : Cursor.decode (Record.kind Epoch) absentEpoch.encode = .ok absentEpoch :=
      Cursor.decode_encode absentEpoch
    have hfind : Engine.tiedEpochs.find? (RecordKey.encode absentEpoch.key) = none := by decide +kernel
    have hplain : ∀ c ∈ Filter.all.conditions, Condition.PlainName c.field := by
      intro c hc
      cases hc
    have hrefused : Engine.Refused Engine.tiedEpochs .all 1 (some absentEpoch.encode)
        (.recordNotFound (Record.kind Epoch) (RecordKey.encode absentEpoch.key)) := by
      refine .notFound hcount hcursor hplain ?_
      intro r hr
      rw [hfind] at hr
      cases hr
    exact ((hlist ⟨Engine.tiedEpochs, some (.empty 1 2)⟩ Engine.reachable_tiedEpochs _ _ _).1 _).2 hrefused
  · have hparse : Json.parse? "[" = none := by decide +kernel
    have hblank : ∃ c ∈ "[".toList, Blank.isBlank c = false := ⟨'[', by simp, rfl⟩
    obtain ⟨_, _, hanswer⟩ := hanswer ⟨.create 6 none, ⟨20, 100⟩⟩ ⟨none, some 0, some "["⟩
    exact (hanswer Engine.noon _ hread).2 _ ⟨_, rfl, hblank, .unreadable hparse⟩

end Server

end ChainIndex
