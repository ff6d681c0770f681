import ChainIndex.Http.Server
import ChainIndex.Proofs.Filter.FieldNames
import ChainIndex.Proofs.Json.RoundTrip
import ChainIndex.Proofs.Listing.Caching

/-!
This module contains the proof that the filter which a page shows can be sent back: its text is read as the same
filter, and a request with that text is answered with the same page.
-/

namespace ChainIndex

theorem Comparison.ofJson_name (c : Comparison) : ofJson (.text c.name) = .ok c := by
  cases c <;> rfl

theorem FilterValue.ofJson_toJson (v : FilterValue) : ofJson v.toJson = .ok v := by
  cases v <;> rfl

theorem FilterValue.exact_toJson (v : FilterValue) : v.toJson.Exact := by
  cases v with
  | bool b => exact .bool b
  | number n => exact .number (.unsigned n)
  | text s => exact .text s

namespace Condition

theorem read_toJson (c : Condition) : fields.read c.toJson = .ok c := by
  simp [fields, toJson, Fields.visit, Fields.required, List.lookup_cons, Except.map, Except.bind, bind,
    Json.readText, Comparison.ofJson_name, FilterValue.ofJson_toJson]

theorem exact_toJson (c : Condition) : c.toJson.Exact := by
  apply Json.Exact.object
  simp [Json.Exact.text, FilterValue.exact_toJson]

end Condition

namespace Filter

variable {f g : Filter}

theorem ofJson_toJson (f : Filter) : ofJson f.toJson = .ok f := by
  rw [ofJson, toJson, Json.readItems_map Condition.read_toJson]
  rfl

theorem exact_toJson (f : Filter) : f.toJson.Exact := by
  apply Json.Exact.array
  intro item hitem
  obtain ⟨c, _, rfl⟩ := List.mem_map.1 hitem
  exact c.exact_toJson

theorem parse?_toText (f : Filter) : Json.parse? f.toText = some f.toJson :=
  Json.parse?_render f.exact_toJson

theorem skip_toText (f : Filter) : Blank.skip f.toText.toList ≠ [] := by
  have htext : f.toText.toList = '[' :: Json.writeItems (f.conditions.map Condition.toJson) := by
    rw [toText, Json.render, String.toList_ofList, toJson, Json.write]
  rw [htext]
  intro hskip
  cases hskip

theorem ofText_toText (h : f.validate = .ok ()) : ofText (some f.toText) = .ok f := by
  simp only [ofText, if_neg f.skip_toText, f.parse?_toText, f.ofJson_toJson, h]
  rfl

theorem validate_of_ofText {text : Option String} (h : ofText text = .ok g) : g.validate = .ok () := by
  unfold ofText at h
  split at h
  · cases h
    rfl
  · split at h
    · cases h
      rfl
    · split at h
      · cases h
      · split at h
        · cases h
        · obtain ⟨_, hvalid, rfl⟩ := map_eq_ok_iff.1 h
          exact hvalid

end Filter

theorem Page.filter_ofScan {ρ κ : Type} [Record ρ κ] (found : List ρ) (total : Nat) (f : Filter) (window : Window)
    (size : Nat) : (ofScan found total f window size).filter = f := by
  unfold ofScan
  cases window.direction <;> rfl

namespace Engine

variable {σ ρ κ : Type} [RecordKey κ] [Record ρ κ] [RecordStore σ ρ κ] {g : Engine σ ρ}

omit [RecordKey κ] [RecordStore σ ρ κ] in
theorem filter_recentPage {size : Nat} {page : Page ρ} (h : g.recentPage size = some page) :
    page.filter = .all := by
  obtain ⟨cache, _, h⟩ := Option.bind_eq_some_iff.1 h
  obtain ⟨top, _, h⟩ := Option.bind_eq_some_iff.1 h
  cases h
  rfl

theorem filter_of_list {f : Filter} {token : Option String} {count : Int32} {page : Page ρ}
    (h : g.list f token count = .ok page) : page.filter = f := by
  obtain ⟨request, _, hpage⟩ := page_of_list h
  cases hpage with
  | inl hrecent => rw [filter_recentPage hrecent.2, hrecent.1]
  | inr hfound =>
    obtain ⟨found, total, window, rfl⟩ := hfound
    apply Page.filter_ofScan

end Engine

theorem Page.exists_render_body {ρ κ : Type} [RecordKey κ] [Record ρ κ] (page : Page ρ) :
    ∃ before after, page.body.render = before ++ "\"filter\":" ++ page.filter.toText ++ after := by
  have hbounds : ("filter", page.filter.toJson) ∈ page.bounds := by simp [bounds]
  have hname : "\"filter\":".toList = Json.quote "filter" ++ [':'] := rfl
  obtain ⟨before, after, hwrite⟩ :=
    Json.exists_writeFields_eq (List.mem_append_left _ (List.mem_cons_of_mem _ hbounds))
  refine ⟨String.ofList ('\x7b' :: before), String.ofList after, ?_⟩
  rw [body, Json.render, Json.write, hwrite, ← String.toList_inj, Filter.toText, Json.render]
  simp [hname]

namespace Server

variable {server : Server} {kind : RecordKind} {query : ListQuery} {page : Page kind.Entry}

theorem ofText_of_listPage (h : server.listPage kind query = .ok page) :
    Filter.ofText query.filter = .ok page.filter := by
  obtain ⟨f, hf, hlist⟩ := bind_eq_ok_iff.1 h
  rw [Engine.filter_of_list hlist]
  apply mapError_eq_ok_iff.1 hf

theorem listPage_congr {other : ListQuery} (hfilter : Filter.ofText other.filter = Filter.ofText query.filter)
    (hcursor : other.cursor = query.cursor) (hcount : other.count = query.count) :
    server.listPage kind other = server.listPage kind query := by
  unfold listPage ListQuery.countWithin
  rw [hfilter, hcursor, hcount]

/--
The text of a filter stands in every page that is scoped by it, and is read as that filter if its field names are
plain. Every filter that is read from a text is such a filter, and sending the one that a page shows leads to the same
page again.
-/
theorem echoed_filter_exact :
    (∀ f : Filter, (∀ c ∈ f.conditions, Condition.PlainName c.field) →
      (∀ (kind : RecordKind) (page : Page kind.Entry), page.filter = f →
        ∃ before after, page.body.render = before ++ "\"filter\":" ++ f.toText ++ after) ∧
      ∀ query : ListQuery, query.filter = some f.toText → Filter.ofText query.filter = .ok f) ∧
    (∀ (query : ListQuery) (g : Filter), Filter.ofText query.filter = .ok g →
      g.validate = .ok () ∧ Filter.ofText (some g.toText) = .ok g) ∧
    ∀ (server : Server) (kind : RecordKind) (query : ListQuery) (page : Page kind.Entry),
      server.listPage kind query = .ok page →
        Filter.ofText query.filter = .ok page.filter ∧
        server.listPage kind { query with filter := some page.filter.toText } = .ok page := by
  refine ⟨?_, ?_, ?_⟩
  · intro f hf
    constructor
    · rintro kind page rfl
      exact page.exists_render_body
    · intro query hquery
      rw [hquery]
      apply Filter.ofText_toText (Filter.validate_eq_ok_iff.2 hf)
  · intro query g hg
    have hvalid := Filter.validate_of_ofText hg
    exact ⟨hvalid, Filter.ofText_toText hvalid⟩
  · intro server kind query page hpage
    have hread := ofText_of_listPage hpage
    have hecho := Filter.ofText_toText (Filter.validate_of_ofText hread)
    refine ⟨hread, ?_⟩
    rw [← hpage]
    apply listPage_congr
    · rw [hecho, hread]
    · rfl
    · rfl

def quotedSender : Filter :=
  ⟨[⟨"sender", .ne, .text "a \"b\" \\ c\n\x01"⟩, ⟨"id", .lte, .number 18446744073709551615⟩,
    ⟨"is_open", .eq, .bool false⟩]⟩

def lowIds : Filter :=
  ⟨[⟨"id", .lte, .number 4⟩]⟩

def lowIdsText : String :=
  " [[\"\\u0069d\",\"lte\",4]]"

def emptyServer : Server :=
  ⟨.create 6 none, ⟨20, 100⟩⟩

theorem echoed_filter_exact_low_ids :
    Filter.ofText (some quotedSender.toText) = .ok quotedSender ∧
    Filter.ofText (some lowIdsText) = .ok lowIds ∧
    Filter.ofText (some lowIds.toText) = .ok lowIds ∧
    ∃ page, emptyServer.listPage .epoch ⟨none, some 5, some lowIdsText⟩ = .ok page ∧
      emptyServer.listPage .epoch ⟨none, some 5, some lowIds.toText⟩ = .ok page := by
  obtain ⟨hplain, hvalid, hpage⟩ := echoed_filter_exact
  have hquoted : ∀ c ∈ quotedSender.conditions, Condition.PlainName c.field := by
    simp only [← Condition.isPlain_iff]
    decide +kernel
  have hlow : Filter.ofText (some lowIdsText) = .ok lowIds := by
    apply toOption_eq_some_iff.1
    decide +kernel
  have hlist : ∃ page, emptyServer.listPage .epoch ⟨none, some 5, some lowIdsText⟩ = .ok page := by
    unfold listPage
    rw [hlow]
    exact ⟨_, rfl⟩
  obtain ⟨page, hlist⟩ := hlist
  obtain ⟨hfilter, hagain⟩ := hpage _ _ _ _ hlist
  have hshown : lowIds = page.filter := Except.ok.inj (hlow.symm.trans hfilter)
  refine ⟨(hplain _ hquoted).2 ⟨none, none, some quotedSender.toText⟩ rfl, hlow, ?_, page, hlist, ?_⟩
  · exact (hvalid ⟨none, none, some _⟩ _ hlow).2
  · rw [hshown]
    exact hagain

end Server

end ChainIndex
