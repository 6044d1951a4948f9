import RequestQuery.Proofs.Request.Dispatch
import RequestQuery.Proofs.Select.Wire

/-!
# The wire form of requests

The unknown properties stand beside the known ones in the wire form, and no unknown one has the key of a
known one. So each field can be looked up under its key, and requests without decimals that have one wire
form are the same request.
-/

namespace RequestQuery

namespace Request

variable {settings settings' : SelectSettings} {document document' : Json} {request request' : Request}

/-- The filters of a request, those in its select included. -/
def filters (request : Request) : List Filter :=
  request.filter.toList ++ request.select.toList.flatMap SelectTree.filters

def decimalFree (request : Request) : Bool := request.filters.all Filter.decimalFree

/-- What is in a request that was read: parts read by their own rules, and unknown properties. -/
structure Legible (request : Request) : Prop where
  select : ∀ tree, request.select = some tree → tree.Legible
  filter : ∀ f, request.filter = some f → ∀ c ∈ f.comparisons, c.Ranged
  nodup : request.extra.keys.Nodup
  unknown : ∀ key ∈ request.extra.keys, key ∉ knownKeys

private theorem textRule_eq_ok {α : Type} {key : String} {read : String → Except QueryError α}
    {value : α} (h : textRule key read document = .ok value) : ∃ text, read text = .ok value := by
  unfold textRule at h
  cases htext : requireText key document with
  | error error => rw [htext] at h; cases h
  | ok text => rw [htext] at h; exact ⟨text, h⟩

theorem Legible.step {key : String} {next : Request} (hs : settings.filter.Obtained)
    (h : request.Legible) (hstep : ReadStep settings request key document next) : next.Legible := by
  cases hstep with
  | select hread =>
      obtain ⟨text, hparse⟩ := textRule_eq_ok hread
      refine { h with select := ?_ }
      intro tree htree
      cases htree
      exact SelectTree.legible_of_parse hs hparse
  | filter hread =>
      obtain ⟨text, hparse⟩ := textRule_eq_ok hread
      refine { h with filter := ?_ }
      intro f hf
      cases hf
      exact Filter.ranged_of_parse hs hparse
  | id | order | limit | page | search => exact { h with }
  | unknown hkey =>
      refine { h with nodup := Table.nodup_keys_put _ _ h.nodup, unknown := ?_ }
      intro other hother
      by_cases hmem : key ∈ request.extra.keys
      · rw [Table.keys_put_of_mem _ hmem] at hother
        exact h.unknown other hother
      · rw [Table.keys_put_of_not_mem _ hmem, List.mem_append, List.mem_singleton] at hother
        rcases hother with hother | rfl
        · exact h.unknown other hother
        · exact hkey

theorem exists_properties (h : parse document settings = .ok request) :
    ∃ properties, document = .object properties ∧
      readProperties settings properties empty = .ok request := by
  unfold parse at h
  split at h
  next properties => exact ⟨properties, rfl, h⟩
  next => cases h

theorem legible_of_parse (hs : settings.filter.Obtained)
    (h : parse document settings = .ok request) : request.Legible := by
  obtain ⟨properties, -, hread⟩ := exists_properties h
  have hempty : empty.Legible := by
    constructor <;> simp [empty, Table.keys]
  refine readProperties_invariant (fun _ request => request.Legible) hempty ?_ hread
  intro before key document after request next _ hrequest hstep
  exact hrequest.step hs hstep

private theorem option_eq_of_map_eq {α β : Type} {f : α → β} {a b : Option α}
    (h : a.map f = b.map f) (hmembers : ∀ x, a = some x → ∀ y, b = some y → f x = f y → x = y) :
    a = b := by
  cases a <;> cases b <;> simp_all

def knownMembers (request : Request) : Table Json :=
  optionalMember "id" .string request.id ++
    optionalMember "select" SelectTree.toJson request.select ++
    optionalMember "filter" Filter.toJson request.filter ++
    optionalMember "order" Order.toJson request.order ++
    optionalMember "limit" Limit.toJson request.limit ++
    optionalMember "page" .nat request.page ++
    optionalMember "search" .string request.search

theorem keys_optionalMember {α : Type} (key : String) (encode : α → Json) (value : Option α) :
    (Table.keys (optionalMember key encode value)).Sublist [key] := by
  cases value <;> simp [optionalMember, Table.keys]

theorem find?_optionalMember {α : Type} (key other : String) (encode : α → Json)
    (value : Option α) :
    Table.find? (optionalMember key encode value) other =
      if key = other then value.map encode else none := by
  cases value <;> simp [optionalMember, Table.find?]

theorem keys_knownMembers (request : Request) :
    request.knownMembers.keys.Sublist knownKeys := by
  have hsublist : request.knownMembers.keys.Sublist
      (["id"] ++ ["select"] ++ ["filter"] ++ ["order"] ++ ["limit"] ++ ["page"] ++ ["search"]) := by
    simp only [knownMembers, Table.keys, List.map_append]
    repeat' apply List.Sublist.append
    all_goals exact keys_optionalMember _ _ _
  exact hsublist.trans (List.sublist_append_left _ ["aggregate"])

theorem Legible.nodup_members (h : request.Legible) :
    (Table.keys (request.knownMembers ++ request.extra)).Nodup := by
  rw [Table.keys, List.map_append, List.nodup_append]
  refine ⟨(keys_knownMembers request).nodup (by decide), h.nodup, ?_⟩
  rintro key hknown _ hextra rfl
  exact h.unknown key hextra ((keys_knownMembers request).subset hknown)

theorem Legible.toJson_eq (h : request.Legible) :
    request.toJson = .object (request.knownMembers ++ request.extra) := by
  have hmembers := h.nodup_members
  rw [← List.nil_append (request.knownMembers ++ request.extra)] at hmembers
  exact congrArg Json.object (Table.putAll_of_nodup hmembers)

theorem Legible.get?_toJson (h : request.Legible) {key : String} (hkey : key ∈ knownKeys) :
    request.toJson.get? key = request.knownMembers.find? key := by
  have habsent : request.extra.find? key = none :=
    Table.find?_eq_none_iff.mpr fun hmem => h.unknown key hmem hkey
  rw [h.toJson_eq, Json.get?, Table.find?_append, habsent, Option.or_none]

theorem Legible.get?_limit (h : request.Legible) :
    request.toJson.get? "limit" = request.limit.map Limit.toJson := by
  rw [h.get?_toJson (by decide)]
  simp [knownMembers, Table.find?_append, find?_optionalMember]

private theorem members_eq (h : request.Legible) (h' : request'.Legible)
    (hjson : request.toJson = request'.toJson) :
    request.id.map Json.string = request'.id.map Json.string ∧
    request.select.map SelectTree.toJson = request'.select.map SelectTree.toJson ∧
    request.filter.map Filter.toJson = request'.filter.map Filter.toJson ∧
    request.order.map Order.toJson = request'.order.map Order.toJson ∧
    request.limit.map Limit.toJson = request'.limit.map Limit.toJson ∧
    request.page.map Json.nat = request'.page.map Json.nat ∧
    request.search.map Json.string = request'.search.map Json.string := by
  have hfind : ∀ key ∈ knownKeys, request.knownMembers.find? key = request'.knownMembers.find? key := by
    intro key hkey
    rw [← h.get?_toJson hkey, ← h'.get?_toJson hkey, hjson]
  simpa [knownKeys, knownMembers, Table.find?_append, find?_optionalMember] using hfind

/-- Requests without decimals in one of them are told apart by their wire forms. -/
theorem eq_of_toJson (h : request.Legible) (h' : request'.Legible)
    (hplain : request.decimalFree = true) (hjson : request.toJson = request'.toJson) :
    request = request' := by
  obtain ⟨hid, hselect, hfilter, horder, hlimit, hpage, hsearch⟩ := members_eq h h' hjson
  have hfilters : ∀ f ∈ request.filters, f.decimalFree = true := List.all_eq_true.mp hplain
  have hselect : request.select = request'.select := by
    refine option_eq_of_map_eq hselect fun tree htree tree' htree' => ?_
    refine SelectTree.eq_of_toJson (h.select tree htree) (h'.select tree' htree') fun f hf => ?_
    exact hfilters f (by simp [filters, htree, hf])
  have hfilter : request.filter = request'.filter := by
    refine option_eq_of_map_eq hfilter fun f hf f' hf' => ?_
    refine Filter.eq_of_toJson (hfilters f ?_) (h.filter f hf) (h'.filter f' hf')
    simp [filters, hf]
  have hid := Option.map_injective (fun _ _ h => Json.string.inj h) hid
  have horder := Option.map_injective Order.toJson_injective horder
  have hlimit := Option.map_injective Limit.toJson_injective hlimit
  have hpage := Option.map_injective Json.nat_injective hpage
  have hsearch := Option.map_injective (fun _ _ h => Json.string.inj h) hsearch
  have hknown : request.knownMembers = request'.knownMembers := by
    simp only [knownMembers, hid, hselect, hfilter, horder, hlimit, hpage, hsearch]
  rw [h.toJson_eq, h'.toJson_eq, hknown] at hjson
  have hextra := List.append_cancel_left (Json.object.inj hjson)
  obtain ⟨id, select, filter, order, limit, page, search, extra⟩ := request
  obtain ⟨id', select', filter', order', limit', page', search', extra'⟩ := request'
  rw [Request.mk.injEq]
  exact ⟨hid, hselect, hfilter, horder, hlimit, hpage, hsearch, hextra⟩

private theorem distinct_optionalMember {α : Type} {key : String} {encode : α → Json}
    {value : Option α} (h : ∀ a, value = some a → (encode a).Distinct) :
    ∀ e ∈ optionalMember key encode value, e.2.Distinct := by
  cases value with
  | none => simp [optionalMember]
  | some a => simpa [optionalMember] using h a rfl

theorem Legible.distinct_knownMembers (h : request.Legible) :
    ∀ e ∈ request.knownMembers, e.2.Distinct := by
  simp only [knownMembers, List.forall_mem_append, and_assoc]
  refine ⟨distinct_optionalMember fun _ _ => trivial, ?_, ?_, ?_, ?_, ?_, ?_⟩
  · exact distinct_optionalMember fun tree htree => SelectTree.distinct_toJson (h.select tree htree)
  · exact distinct_optionalMember fun f _ => f.distinct_toJson
  · exact distinct_optionalMember fun order _ => Order.distinct_toJson order
  · exact distinct_optionalMember fun limit _ => limit.distinct_toJson
  · exact distinct_optionalMember fun _ _ => trivial
  · exact distinct_optionalMember fun _ _ => trivial

theorem distinct_toJson (hs : settings.filter.Obtained) (hdistinct : document.Distinct)
    (h : parse document settings = .ok request) : request.toJson.Distinct := by
  have hlegible := legible_of_parse hs h
  obtain ⟨properties, rfl, -⟩ := exists_properties h
  obtain ⟨hnodup, hvalues⟩ := Json.distinct_object.mp hdistinct
  rw [hlegible.toJson_eq, Json.distinct_object, List.forall_mem_append]
  refine ⟨hlegible.nodup_members, hlegible.distinct_knownMembers, fun e he => ?_⟩
  rw [(reads_of_parse hnodup h).extra] at he
  exact hvalues e (List.filter_sublist.subset he)

/-- The wire form of a request that was read loses nothing but decimals: requests with one wire form are
the same, whatever they were read from, if one of them has no decimals. The children of a node stand
under a key of their own and its parameters under their names, a missing limit is not the null of an
unlimited one, and no key is repeated that was not repeated in the document. -/
theorem parse_wire_lossless (hs : settings.filter.Obtained) (hs' : settings'.filter.Obtained)
    (h : parse document settings = .ok request) (h' : parse document' settings' = .ok request') :
    (request.decimalFree = true → request.toJson = request'.toJson → request = request') ∧
    (∀ tree path node, request.select = some tree → tree.Holds path node →
      node.toJson.get? "select" = node.children.map SelectTree.toJson ∧
      ∀ name, name ≠ "select" →
        node.toJson.get? name = (node.parameters.find? name).map ParameterValue.toJson) ∧
    request.toJson.get? "limit" = request.limit.map Limit.toJson ∧
    (document.Distinct → request.toJson.Distinct) := by
  have hlegible := legible_of_parse hs h
  refine ⟨eq_of_toJson hlegible (legible_of_parse hs' h'), ?_, hlegible.get?_limit,
    fun hdistinct => distinct_toJson hs hdistinct h⟩
  intro tree path node htree hnode
  have hnode := (hlegible.select tree htree).holds hnode
  exact ⟨hnode.get?_select, fun name => hnode.get?_parameter⟩

private def nestedDocument (select : String) : Json :=
  .object [("select", .string select), ("limit", .string "unlimited"), ("zeta", .null)]

private def nestedRequest (tree : SelectTree) : Request :=
  { empty with select := some tree, limit := some .unlimited, extra := [("zeta", .null)] }

private theorem parse_nestedDocument {select : String} {tree : SelectTree}
    (h : SelectTree.parse select .initial = .ok tree) :
    parse (nestedDocument select) .initial = .ok (nestedRequest tree) := by
  have hproperty : readProperty .initial empty "select" (.string select) =
      .ok { empty with select := some tree } := by
    rw [readProperty_eq]
    simp [textRule, requireText, h, bind, Except.bind, Except.map]
  rw [nestedDocument, parse, readProperties, hproperty]
  rfl

/-- The range `1..2` and the set `1,2` are one array, so these requests differ in an operator only. -/
theorem parse_wire_lossless_range :
    ∃ request request' tree node, parse (nestedDocument "a(filter=x=1..2)[b]") .initial = .ok request ∧
      parse (nestedDocument "a(filter=x=1,2)[b]") .initial = .ok request' ∧
      request.decimalFree = true ∧ request.toJson ≠ request'.toJson ∧
      request.select = some tree ∧ tree.Holds ["a"] node ∧ node.children.isSome = true ∧
      node.toJson.get? "select" = node.children.map SelectTree.toJson ∧
      request.toJson.get? "limit" = some .null ∧ request.toJson.Distinct := by
  have hrange : ((SelectTree.parse "a(filter=x=1..2)[b]" .initial).toOption.bind fun tree =>
      (tree.find? "a").map fun node => (tree.filters, node.children.isSome)) =
        some ([⟨[[⟨["x"], .between, .range (.integer 1) (.integer 2)⟩]]⟩], true) := by
    decide +kernel
  have hset : (SelectTree.parse "a(filter=x=1,2)[b]" .initial).toOption.map SelectTree.filters =
      some [⟨[[⟨["x"], .equal, .set [.integer 1, .integer 2]⟩]]⟩] := by
    decide +kernel
  cases htree : SelectTree.parse "a(filter=x=1..2)[b]" .initial with
  | error error => simp [htree, Except.toOption] at hrange
  | ok tree =>
      cases htree' : SelectTree.parse "a(filter=x=1,2)[b]" .initial with
      | error error => simp [htree', Except.toOption] at hset
      | ok tree' =>
          simp only [htree, htree', Except.toOption, Option.bind_some, Option.map_some,
            Option.map_eq_some_iff, Prod.mk.injEq, Option.some.injEq] at hrange hset
          obtain ⟨node, hnode, hfilters, hchildren⟩ := hrange
          have hholds : tree.Holds ["a"] node := .root (Table.mem_of_find?_eq_some hnode)
          have hplain : (nestedRequest tree).decimalFree = true := by
            simp only [decimalFree, filters, nestedRequest, empty, Option.toList_none,
              Option.toList_some, List.nil_append, List.flatMap_singleton, hfilters]
            decide
          have hdistinct : (nestedDocument "a(filter=x=1..2)[b]").Distinct := by
            rw [nestedDocument, Json.distinct_object]
            exact ⟨by decide, by simp [Json.Distinct]⟩
          obtain ⟨hinjective, hselect, hlimit, hkeys⟩ := parse_wire_lossless .initial .initial
            (parse_nestedDocument htree) (parse_nestedDocument htree')
          refine ⟨_, _, tree, node, parse_nestedDocument htree, parse_nestedDocument htree', hplain,
            fun hjson => ?_, rfl, hholds, hchildren, (hselect tree _ node rfl hholds).1, hlimit,
            hkeys hdistinct⟩
          have hequal : tree = tree' := by simpa [nestedRequest] using hinjective hplain hjson
          rw [← hequal, hfilters] at hset
          revert hset
          decide

end Request

end RequestQuery
