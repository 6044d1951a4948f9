import RequestQuery.Request
import RequestQuery.Proofs.Filter.Formula
import RequestQuery.Proofs.Select.Equality

/-!
# Dispatch of properties

Every known property has a rule of its own, and nothing else decides about it: a request is read exactly
if no property is refused, its fields are the results of the rules, and what is unknown is kept in order.
The first refused property gives the error. The order of the properties only orders the unknown ones.
-/

namespace RequestQuery

namespace Request

/-- The rule of a property that has to be a text, which is then read. -/
def textRule {α : Type} (key : String) (read : String → Except QueryError α) (document : Json) :
    Except QueryError α :=
  requireText key document >>= read

/-- What the rule of each known property finds wrong with a document. -/
def rules (settings : SelectSettings) : Table (Json → Option QueryError) :=
  [("id", fun document => Formula.refusal (parseId document)),
    ("select", fun document =>
      Formula.refusal (textRule "select" (SelectTree.parse · settings) document)),
    ("filter", fun document =>
      Formula.refusal (textRule "filter" (Filter.parse · settings.filter) document)),
    ("order", fun document => Formula.refusal (textRule "order" Order.parse document)),
    ("limit", fun document => Formula.refusal (Limit.ofJson document)),
    ("page", fun document => Formula.refusal (Page.ofJson document)),
    ("search", fun document => Formula.refusal (parseSearch document)),
    ("aggregate", fun document => Formula.refusal (parseAggregate document))]

def knownKeys : List String :=
  ["id", "select", "filter", "order", "limit", "page", "search", "aggregate"]

/-- What is wrong with a property; an unknown one is never refused. -/
def refusal (settings : SelectSettings) (key : String) (document : Json) : Option QueryError :=
  ((rules settings).find? key).bind fun rule => rule document

/-- The entries with unknown keys. -/
def unknown (properties : Table Json) : Table Json := properties.filter fun e => e.1 ∉ knownKeys

/-- A request that has what the rules give for the properties that are there, nothing for those that are
not, and the unknown properties as they are. -/
structure Reads (settings : SelectSettings) (properties : Table Json) (request : Request) : Prop where
  id : request.id.map .ok = (properties.find? "id").map parseId
  select : request.select.map .ok =
    (properties.find? "select").map (textRule "select" (SelectTree.parse · settings))
  filter : request.filter.map .ok =
    (properties.find? "filter").map (textRule "filter" (Filter.parse · settings.filter))
  order : request.order.map .ok = (properties.find? "order").map (textRule "order" Order.parse)
  limit : request.limit.map .ok = (properties.find? "limit").map Limit.ofJson
  page : request.page.map .ok = (properties.find? "page").map Page.ofJson
  search : request.search.map .ok = (properties.find? "search").map parseSearch
  extra : request.extra = unknown properties

variable {settings : SelectSettings} {properties : Table Json} {request : Request}

theorem refusal_aggregate (settings : SelectSettings) (document : Json) :
    refusal settings "aggregate" document =
      some (.validation .notImplemented "aggregate is not implemented") := rfl

/-- What the rules give leaves nothing open. -/
theorem Reads.unique {request' : Request} (h : Reads settings properties request)
    (h' : Reads settings properties request') : request = request' := by
  have hok : ∀ {α : Type}, Function.Injective (Option.map (@Except.ok QueryError α)) :=
    fun {α} => Option.map_injective fun a b hab => Except.ok.inj hab
  obtain ⟨id, select, filter, order, limit, page, search, extra⟩ := request
  obtain ⟨id', select', filter', order', limit', page', search', extra'⟩ := request'
  rw [Request.mk.injEq]
  exact ⟨hok (h.id.trans h'.id.symm), hok (h.select.trans h'.select.symm),
    hok (h.filter.trans h'.filter.symm), hok (h.order.trans h'.order.symm),
    hok (h.limit.trans h'.limit.symm), hok (h.page.trans h'.page.symm),
    hok (h.search.trans h'.search.symm), h.extra.trans h'.extra.symm⟩

private theorem textRule_bind {α : Type} {key : String} {read : String → Except QueryError α}
    {document : Json} (set : α → Request) :
    (do pure (set (← read (← requireText key document)))) =
      (textRule key read document).map set := by
  unfold textRule
  cases requireText key document with
  | error e => rfl
  | ok text => cases hread : read text <;> simp [bind, Except.bind, hread] <;> rfl

theorem readProperty_eq (settings : SelectSettings) (request : Request) (key : String)
    (document : Json) :
    readProperty settings request key document =
      if key = "id" then (parseId document).map fun value => { request with id := some value }
      else if key = "select" then
        (textRule key (SelectTree.parse · settings) document).map fun value =>
          { request with select := some value }
      else if key = "filter" then
        (textRule key (Filter.parse · settings.filter) document).map fun value =>
          { request with filter := some value }
      else if key = "order" then
        (textRule key Order.parse document).map fun value => { request with order := some value }
      else if key = "limit" then
        (Limit.ofJson document).map fun value => { request with limit := some value }
      else if key = "page" then
        (Page.ofJson document).map fun value => { request with page := some value }
      else if key = "search" then
        (parseSearch document).map fun value => { request with search := some value }
      else if key = "aggregate" then (parseAggregate document).map fun _ => request
      else .ok { request with extra := request.extra.put key document } := by
  unfold readProperty
  simp only [← textRule_bind]
  rfl

/-- What reading one property does to a request. -/
inductive ReadStep (settings : SelectSettings) (request : Request) :
    String → Json → Request → Prop
  | id {document value} (h : parseId document = .ok value) :
      ReadStep settings request "id" document { request with id := some value }
  | select {document value}
      (h : textRule "select" (SelectTree.parse · settings) document = .ok value) :
      ReadStep settings request "select" document { request with select := some value }
  | filter {document value}
      (h : textRule "filter" (Filter.parse · settings.filter) document = .ok value) :
      ReadStep settings request "filter" document { request with filter := some value }
  | order {document value} (h : textRule "order" Order.parse document = .ok value) :
      ReadStep settings request "order" document { request with order := some value }
  | limit {document value} (h : Limit.ofJson document = .ok value) :
      ReadStep settings request "limit" document { request with limit := some value }
  | page {document value} (h : Page.ofJson document = .ok value) :
      ReadStep settings request "page" document { request with page := some value }
  | search {document value} (h : parseSearch document = .ok value) :
      ReadStep settings request "search" document { request with search := some value }
  | unknown {key document} (h : key ∉ knownKeys) :
      ReadStep settings request key document
        { request with extra := request.extra.put key document }

/-- A property is either read by a step and not refused, or refused with the error of its rule. -/
def Dispatched (settings : SelectSettings) (request : Request) (key : String) (document : Json) :
    Except QueryError Request → Prop :=
  Meets
    (fun next => ReadStep settings request key document next ∧ refusal settings key document = none)
    (fun source => refusal settings key document = some source)

private theorem dispatched_map {α : Type} {key : String} {document : Json}
    {outcome : Except QueryError α} {set : α → Request}
    (hrule : refusal settings key document = Formula.refusal outcome)
    (hstep : ∀ value, outcome = .ok value → ReadStep settings request key document (set value)) :
    Dispatched settings request key document (outcome.map set) := by
  cases outcome with
  | ok value => exact ⟨hstep value rfl, hrule⟩
  | error source => exact hrule

theorem dispatched_readProperty (settings : SelectSettings) (request : Request) (key : String)
    (document : Json) :
    Dispatched settings request key document (readProperty settings request key document) := by
  rw [readProperty_eq]
  by_cases hid : key = "id"
  · rw [if_pos hid]
    subst hid
    exact dispatched_map rfl fun _ => .id
  rw [if_neg hid]
  by_cases hselect : key = "select"
  · rw [if_pos hselect]
    subst hselect
    exact dispatched_map rfl fun _ => .select
  rw [if_neg hselect]
  by_cases hfilter : key = "filter"
  · rw [if_pos hfilter]
    subst hfilter
    exact dispatched_map rfl fun _ => .filter
  rw [if_neg hfilter]
  by_cases horder : key = "order"
  · rw [if_pos horder]
    subst horder
    exact dispatched_map rfl fun _ => .order
  rw [if_neg horder]
  by_cases hlimit : key = "limit"
  · rw [if_pos hlimit]
    subst hlimit
    exact dispatched_map rfl fun _ => .limit
  rw [if_neg hlimit]
  by_cases hpage : key = "page"
  · rw [if_pos hpage]
    subst hpage
    exact dispatched_map rfl fun _ => .page
  rw [if_neg hpage]
  by_cases hsearch : key = "search"
  · rw [if_pos hsearch]
    subst hsearch
    exact dispatched_map rfl fun _ => .search
  rw [if_neg hsearch]
  by_cases haggregate : key = "aggregate"
  · rw [if_pos haggregate]
    subst haggregate
    exact dispatched_map rfl nofun
  rw [if_neg haggregate]
  have hunknown : key ∉ knownKeys := by
    simp [knownKeys, hid, hselect, hfilter, horder, hlimit, hpage, hsearch, haggregate]
  have hfind : (rules settings).find? key = none := Table.find?_eq_none_iff.mpr hunknown
  exact ⟨.unknown hunknown, by rw [refusal, hfind]; rfl⟩

theorem refusal_readProperty (settings : SelectSettings) (request : Request) (key : String)
    (document : Json) :
    Formula.refusal (readProperty settings request key document) = refusal settings key document := by
  have h := dispatched_readProperty settings request key document
  cases hread : readProperty settings request key document with
  | ok next => exact (hread ▸ h).2.symm
  | error source => exact (hread ▸ h).symm

theorem readStep_of_readProperty {key : String} {document : Json} {next : Request}
    (h : readProperty settings request key document = .ok next) :
    ReadStep settings request key document next :=
  (h ▸ dispatched_readProperty settings request key document).1

theorem Reads.step {key : String} {document : Json} {next : Request}
    (hreads : Reads settings properties request) (hkey : key ∉ properties.keys)
    (hstep : ReadStep settings request key document next) :
    Reads settings (properties ++ [(key, document)]) next := by
  have habsent : properties.find? key = none := Table.find?_eq_none_iff.mpr hkey
  obtain ⟨hid, hselect, hfilter, horder, hlimit, hpage, hsearch, hextra⟩ := hreads
  cases hstep with
  | id h | select h | filter h | order h | limit h | page h | search h =>
      constructor <;> simp [Table.find?_append, Table.find?, unknown, knownKeys, *]
  | unknown h =>
      have hfields : ∀ other ∈ knownKeys, key ≠ other := by
        intro other hother heq
        exact h (heq ▸ hother)
      simp only [knownKeys, List.forall_mem_cons] at hfields
      have hfresh : key ∉ request.extra.keys := by
        rw [hextra]
        intro hmem
        exact hkey ((List.filter_sublist.map Prod.fst).subset hmem)
      constructor
      case extra =>
        change request.extra.put key document = _
        rw [Table.put_of_not_mem document hfresh, hextra]
        simp [unknown, h]
      all_goals simp [Table.find?_append, Table.find?, *]

/-- The fault of a request is that of its first refused property, whatever was read before. -/
theorem refusal_readProperties (settings : SelectSettings) (properties : Table Json)
    (request : Request) :
    Formula.refusal (readProperties settings properties request) =
      properties.findSome? fun e => (refusal settings e.1 e.2).map (.request e.1) := by
  induction properties generalizing request with
  | nil => rfl
  | cons e rest ih =>
      have hhead := refusal_readProperty settings request e.1 e.2
      rw [readProperties, List.findSome?_cons, ← hhead]
      cases readProperty settings request e.1 e.2 with
      | error source => rfl
      | ok next => exact ih next

/-- What every step keeps holds at the end. The first argument is what has been read so far. -/
theorem readProperties_invariant (invariant : Table Json → Request → Prop)
    (hempty : invariant [] empty)
    (hstep : ∀ before key document after request next,
      properties = before ++ (key, document) :: after → invariant before request →
        ReadStep settings request key document next → invariant (before ++ [(key, document)]) next)
    (h : readProperties settings properties empty = .ok request) : invariant properties request := by
  have hrun : ∀ rest before start, properties = before ++ rest → invariant before start →
      readProperties settings rest start = .ok request → invariant properties request := by
    intro rest
    induction rest with
    | nil =>
        intro before start hsplit hstart hread
        cases hread
        rw [hsplit, List.append_nil]
        exact hstart
    | cons e rest ih =>
        intro before start hsplit hstart hread
        rw [readProperties] at hread
        cases hproperty : readProperty settings start e.1 e.2 with
        | error source => simp [hproperty] at hread
        | ok next =>
            rw [hproperty] at hread
            have hnext := hstep before e.1 e.2 rest start next hsplit hstart
              (readStep_of_readProperty hproperty)
            rw [List.append_cons] at hsplit
            exact ih _ next hsplit hnext hread
  exact hrun properties [] empty rfl hempty h

theorem reads_of_parse (hnodup : properties.keys.Nodup)
    (h : parse (.object properties) settings = .ok request) : Reads settings properties request := by
  refine readProperties_invariant (Reads settings) (by constructor <;> rfl) ?_ h
  intro before key document after request next hsplit hreads hstep
  rw [hsplit] at hnodup
  exact hreads.step (Table.not_mem_keys_of_nodup hnodup) hstep

theorem parse_eq_ok_iff (settings : SelectSettings) (properties : Table Json) :
    (∃ request, parse (.object properties) settings = .ok request) ↔
      ∀ e ∈ properties, refusal settings e.1 e.2 = none := by
  change (∃ request, readProperties settings properties empty = .ok request) ↔ _
  rw [← Formula.refusal_eq_none, refusal_readProperties, List.findSome?_eq_none_iff]
  simp only [Option.map_eq_none_iff]

theorem parse_eq_error_iff (settings : SelectSettings) (properties : Table Json)
    (error : QueryError) :
    parse (.object properties) settings = .error error ↔
      ∃ before key document after source, properties = before ++ (key, document) :: after ∧
        (∀ e ∈ before, refusal settings e.1 e.2 = none) ∧
        refusal settings key document = some source ∧ error = .request key source := by
  change readProperties settings properties empty = .error error ↔ _
  rw [← Formula.refusal_eq_some, refusal_readProperties, List.findSome?_eq_some_iff]
  constructor
  · rintro ⟨before, e, after, hsplit, hrefused, hbefore⟩
    obtain ⟨source, hsource, hwrapped⟩ := Option.map_eq_some_iff.mp hrefused
    refine ⟨before, e.1, e.2, after, source, hsplit, ?_, hsource, hwrapped.symm⟩
    intro e' he'
    exact Option.map_eq_none_iff.mp (hbefore e' he')
  · rintro ⟨before, key, document, after, source, hsplit, hbefore, hsource, rfl⟩
    refine ⟨before, (key, document), after, hsplit, by rw [hsource]; rfl, ?_⟩
    intro e' he'
    exact Option.map_eq_none_iff.mpr (hbefore e' he')

theorem Reads.perm {other : Table Json} (hreads : Reads settings properties request)
    (hnodup : properties.keys.Nodup) (hperm : other.Perm properties) :
    Reads settings other { request with extra := unknown other } := by
  obtain ⟨hid, hselect, hfilter, horder, hlimit, hpage, hsearch, -⟩ := hreads
  constructor <;> simp only [Table.find?_perm hnodup hperm, *]

/-- An object with distinct keys is read exactly if it has no aggregate and every known property passes
its own rule. Then each field is what its rule gives, and what is unknown is kept in order. Otherwise the
error is that of the first property that is refused, seen through the property's name. Another order of
the properties only reorders what is unknown. -/
theorem parse_dispatches (settings : SelectSettings) {properties : Table Json}
    (hnodup : properties.keys.Nodup) :
    ((∃ request, parse (.object properties) settings = .ok request) ↔
      "aggregate" ∉ properties.keys ∧
        ∀ e ∈ properties, e.1 ≠ "aggregate" → refusal settings e.1 e.2 = none) ∧
    (∀ request, parse (.object properties) settings = .ok request →
      Reads settings properties request) ∧
    (∀ error, parse (.object properties) settings = .error error →
      ∃ before key document after source, properties = before ++ (key, document) :: after ∧
        (∀ e ∈ before, refusal settings e.1 e.2 = none) ∧
        refusal settings key document = some source ∧ error = .request key source ∧
        error.code = source.code ∧ error.location = source.location ∧
        error.isSyntax = source.isSyntax ∧ error.isSemantic = source.isSemantic) ∧
    ∀ other : Table Json, other.Perm properties →
      ((∃ request, parse (.object other) settings = .ok request) ↔
        ∃ request, parse (.object properties) settings = .ok request) ∧
      ∀ request, parse (.object properties) settings = .ok request →
        parse (.object other) settings = .ok { request with extra := unknown other } := by
  refine ⟨?_, fun request h => reads_of_parse hnodup h, ?_, fun other hperm => ?_⟩
  · rw [parse_eq_ok_iff]
    constructor
    · intro h
      refine ⟨fun hmem => ?_, fun e he _ => h e he⟩
      obtain ⟨e, he, hkey⟩ := List.mem_map.mp hmem
      have hrefused := h e he
      rw [hkey, refusal_aggregate] at hrefused
      cases hrefused
    · rintro ⟨habsent, h⟩ e he
      apply h e he
      intro hkey
      exact habsent (hkey ▸ List.mem_map_of_mem he)
  · intro error h
    obtain ⟨before, key, document, after, source, hsplit, hbefore, hsource, rfl⟩ :=
      (parse_eq_error_iff settings properties error).mp h
    exact ⟨before, key, document, after, source, hsplit, hbefore, hsource, rfl, rfl, rfl, rfl, rfl⟩
  · have hsuccess : (∃ request, parse (.object other) settings = .ok request) ↔
        ∃ request, parse (.object properties) settings = .ok request := by
      simp only [parse_eq_ok_iff, hperm.mem_iff]
    refine ⟨hsuccess, fun request h => ?_⟩
    have hnodup' : other.keys.Nodup := (hperm.map Prod.fst).nodup_iff.mpr hnodup
    obtain ⟨request', h'⟩ := hsuccess.mpr ⟨request, h⟩
    have hexpected := (reads_of_parse hnodup h).perm hnodup hperm
    rw [h', (reads_of_parse hnodup' h').unique hexpected]

private def wanted : Table Json :=
  [("zeta", .null), ("limit", .string "unlimited"), ("alpha", .bool true), ("id", .nat 7)]

private def wantedRequest : Request :=
  { empty with
    id := some "7", limit := some .unlimited, extra := [("zeta", .null), ("alpha", .bool true)] }

/-- The second of these properties is refused before the third, which would be refused as well. -/
private def refused : Table Json := [("zeta", .null), ("page", .nat 0), ("id", .null)]

theorem parse_dispatches_reversed :
    wanted.keys.Nodup ∧ refused.keys.Nodup ∧
    parse (.object wanted) .initial = .ok wantedRequest ∧
    parse (.object wanted.reverse) .initial =
      .ok { wantedRequest with extra := [("alpha", .bool true), ("zeta", .null)] } ∧
    parse (.object refused) .initial = .error (.request "page"
      (.validation .valueOutOfRange "page must be greater than 0")) ∧
    ¬∃ request, parse (.object refused.reverse) .initial = .ok request := by
  have hwanted : wanted.keys.Nodup := by decide
  have hrefused : refused.keys.Nodup := by decide
  have hread : parse (.object wanted) .initial = .ok wantedRequest := by rfl
  have herror : parse (.object refused) .initial = .error (.request "page"
      (.validation .valueOutOfRange "page must be greater than 0")) := by rfl
  refine ⟨hwanted, hrefused, hread, ?_, herror, ?_⟩
  · exact ((parse_dispatches .initial hwanted).2.2.2 _ wanted.reverse_perm).2 _ hread
  · rw [((parse_dispatches .initial hrefused).2.2.2 _ refused.reverse_perm).1, herror]
    rintro ⟨request, h⟩
    cases h

end Request

end RequestQuery
