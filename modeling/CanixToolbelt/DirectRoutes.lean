import Mathlib.Data.List.ReduceOption
import Mathlib.Data.List.Sort
import Mathlib.Data.Set.List
import CanixToolbelt.DirectNetwork
import CanixToolbelt.Fallible
import CanixToolbelt.IpAddr

/-! Projection of the main table onto direct devices: every eligible route is replayed as it
stands, or the whole selection refused. -/
namespace CanixToolbelt
namespace DirectNetwork
open Json Fallible

inductive RouteScope where
  | global | link | host
  deriving DecidableEq, Repr

def RouteScope.asStr : RouteScope → String
  | .global => "global"
  | .link => "link"
  | .host => "host"

structure NextHop where
  device : String
  gateway : Option String
  weight : ℕ
  onlink : Bool
  deriving DecidableEq, Repr

structure Route where
  destination : String
  device : String
  gateway : Option String
  source : Option String
  metric : ℕ
  scope : RouteScope
  /-- A connected route. -/
  isLocal : Bool
  onlink : Bool
  nexthops : List NextHop
  deriving DecidableEq, Repr

/-! ## Selection -/

def supportedRouteFlags (flags : Json) : Bool :=
  flags.asArray.any fun flags => flags.all fun flag => flag.asStr.any (· ∈
    ["onlink","dead","linkdown","unresolved","offload","trap","notify","rt_offload","rt_trap",
      "rt_offload_failed"])

def flaggedOnlink (v : Json) : Bool :=
  (v.get "flags").asArray.any fun flags => flags.any (· = .str "onlink")

/-- Attributes that no replay can express, with the error that each of them is. -/
def absent (v : Json) : List (String × String) → Except String Unit
  | [] => .ok ()
  | (key,message)::rest => do
    require (v.get? key).isNone message
    absent v rest

def hopRewrites : List (String × String) :=
  [("to","unsupported multipath destination rewrite"),("flow","unsupported multipath realms"),
    ("via","unsupported cross-family multipath gateway"),
    ("encap","unsupported multipath encapsulation")]

def hopWeight (hop : Json) : Option ℕ :=
  ((hop.get? "weight").elim (some 1) asU64).filter fun w => 1 ≤ w ∧ w ≤ 256

def address (ip : String) : Bool := (IpAddr.parse ip).isSome

def nextHop (hop : Json) : Except String NextHop := do
  absent hop hopRewrites
  let gateway := (hop.get "gateway").asStr
  match hopWeight hop with
  | none => .error "invalid multipath weight"
  | some weight => do
    require (gateway.all address) "invalid multipath gateway"
    require ((hop.get? "flags").all supportedRouteFlags) "unsupported multipath flags"
    match (hop.get "dev").asStr with
    | none => .error "missing multipath interface"
    | some device => .ok ⟨device,gateway,weight,flaggedOnlink hop⟩

def direct (devices : Finset String) (v : Json) : Bool := (v.get "dev").asStr.any (· ∈ devices)

/-- The hops of a multipath route, none of them for a route of one path. No result is a route
that is passed over. -/
def routeHops (devices : Finset String) (route : Json) : Except String (Option (List NextHop)) :=
  match route.get? "nexthops" with
  | none => .ok (some [])
  | some hops =>
    match hops.asArray.filter (· ≠ []) with
    | none => .error "invalid multipath nexthops"
    | some hops =>
      if hops.any fun hop => !direct devices hop then .ok none
      else do
        require (hops.length ≤ 60) "invalid multipath nexthops (replay limit: 60)"
        require ((route.get? "dev").isNone ∧ (route.get? "gateway").isNone)
          "ambiguous multipath route"
        let nexthops ← hops.mapM nextHop
        .ok (some nexthops)

def routeRewrites : List (String × String) :=
  [("encap","unsupported direct route encapsulation"),
    ("via","unsupported cross-family direct route gateway"),
    ("metrics","unsupported direct route metrics"),
    ("expires","unsupported direct route lifetime"),
    ("ttl-propogate","unsupported direct route TTL propagation"),
    ("flow","unsupported direct route realms"),
    ("tos","unsupported direct route TOS selector"),
    ("from","unsupported direct route source selector"),
    ("src","unsupported direct route source selector"),
    ("nhid","unsupported direct route referenced nexthop")]

/-- Universe scope is omitted from ordinary output. -/
def routeScope (route : Json) : Except String RouteScope :=
  match route.get? "scope" with
  | none => .ok .global
  | some v =>
    if v = .str "global" then .ok .global
    else if v = .str "link" then .ok .link
    else if v = .str "host" then .ok .host
    else .error "unsupported direct route scope"

def routeDestination (route : Json) : String := (route.get "dst").asStr.getD "default"

def routeOf (route : Json) (device : String) (nexthops : List NextHop) (scope : RouteScope) :
    Route where
  destination := routeDestination route
  device := device
  gateway := (route.get "gateway").asStr
  source := (route.get "prefsrc").asStr
  metric := (route.get "metric").asU64.getD 0
  scope := scope
  isLocal := routeDestination route ≠ "default" && (route.get "gateway").asStr.isNone &&
    nexthops.all (·.gateway.isNone)
  onlink := flaggedOnlink route
  nexthops := nexthops

def replayed (route : Json) (device : String) (nexthops : List NextHop) : Except String Route := do
  absent route [("to","unsupported direct route destination rewrite")]
  require ((route.get? "flags").all supportedRouteFlags) "unsupported direct route flags"
  absent route routeRewrites
  let scope ← routeScope route
  require (nexthops = [] ∨ scope = .global) "unsupported direct route multipath scope"
  require ((route.get? "pref").all (· = .str "medium")) "unsupported direct route preference"
  require (token (routeDestination route) ∧ (route.get "gateway").asStr.all address ∧
    (route.get "prefsrc").asStr.all address) "invalid address in direct route snapshot"
  .ok (routeOf route device nexthops scope)

/-- A route that another kind of traffic has. -/
def foreign (route : Json) : Bool := (route.get "type").asStr.any (· ≠ "unicast")

def selectRoute (devices : Finset String) (route : Json) : Except String (Option Route) :=
  if foreign route then .ok none
  else do
    match ← routeHops devices route with
    | none => .ok none
    | some nexthops =>
      if nexthops = [] then
        match (route.get "dev").asStr.filter (· ∈ devices) with
        | none => .ok none
        | some device => do
          let r ← replayed route device []
          .ok (some r)
      else do
        let r ← replayed route "" nexthops
        .ok (some r)

/-- Connected routes come first. -/
def connectedFirst (a b : Route) : Prop :=
  (a.gateway.isSome || a.nexthops.any (·.gateway.isSome)) ≤
    (b.gateway.isSome || b.nexthops.any (·.gateway.isSome))

instance : DecidableRel connectedFirst := fun _ _ => inferInstanceAs (Decidable (_ ≤ _))

def selectRoutes (policy : Policy) (links routes : Json) : Except String (List Route) := do
  let devices ← directDevices policy links
  match routes.asArray with
  | none => .error "ip route did not return an array"
  | some routes => do
    let selected ← routes.mapM (selectRoute devices)
    .ok (selected.reduceOption.insertionSort connectedFirst)

/-! ## What a selection has to be -/

/-- A route of ordinary traffic, every path of which is direct. -/
def eligibleRoute (devices : Finset String) (route : Json) : Bool :=
  !foreign route &&
    match route.get? "nexthops" with
    | none => direct devices route
    | some hops => hops.items ≠ [] && hops.items.all (direct devices)

/-- An onlink flag among the flags, all of them texts, or no flags at all. -/
def FlagsProjected (v : Json) (onlink : Bool) : Prop :=
  (v.get? "flags" = none ∧ onlink = false) ∨
    ∃ flags : List String, v.get? "flags" = some (.arr (flags.map .str)) ∧
      (onlink ↔ "onlink" ∈ flags)

/-- A next hop reproduced attribute by attribute. -/
structure HopProjected (hop : Json) (n : NextHop) : Prop where
  device : hop.get? "dev" = some (.str n.device)
  gateway : hop.get? "gateway" = n.gateway.map .str
  weight : (hop.get? "weight" = none ∧ n.weight = 1) ∨
    ∃ w, hop.get? "weight" = some w ∧ w.asU64 = some n.weight
  onlink : FlagsProjected hop n.onlink
  plain : ∀ k ∈ hopRewrites, hop.get? k.1 = none

/-- A route reproduced attribute by attribute, and without any that cannot be. -/
structure Projected (route : Json) (r : Route) : Prop where
  destination : (route.get? "dst" = none ∧ r.destination = "default") ∨
    route.get? "dst" = some (.str r.destination)
  gateway : route.get? "gateway" = r.gateway.map .str
  source : route.get? "prefsrc" = r.source.map .str
  metric : (route.get? "metric" = none ∧ r.metric = 0) ∨
    ∃ m, route.get? "metric" = some m ∧ m.asU64 = some r.metric
  scope : (route.get? "scope" = none ∧ r.scope = .global) ∨
    route.get? "scope" = some (.str r.scope.asStr)
  onlink : FlagsProjected route r.onlink
  paths : (route.get? "nexthops" = none ∧ route.get? "dev" = some (.str r.device) ∧
      r.nexthops = []) ∨
    ∃ hops, route.get? "nexthops" = some (.arr hops) ∧ r.device = "" ∧ hops ≠ [] ∧
      List.Forall₂ HopProjected hops r.nexthops
  plain : route.get? "to" = none ∧ ∀ k ∈ routeRewrites, route.get? k.1 = none

/-- A refusal, or the eligible routes and no others, each of them reproduced. -/
def Faithful (policy : Policy) (links routes : Json) (result : Except String (List Route)) : Prop :=
  ∀ selected, result = .ok selected → ∃ devices rows projected,
    directDevices policy links = .ok devices ∧ routes = .arr rows ∧
      List.Forall₂ Projected (rows.filter (eligibleRoute devices)) projected ∧
        selected.Perm projected

/-- The attributes that are read leniently are texts, and the metric a number of 64 bits. -/
structure Documented (route : Json) : Prop where
  destination : ∀ v, route.get? "dst" = some v → v.isString
  gateway : ∀ v, route.get? "gateway" = some v → v.isString
  source : ∀ v, route.get? "prefsrc" = some v → v.isString
  metric : ∀ v, route.get? "metric" = some v → v.asU64.isSome
  hops : ∀ hop ∈ (route.get "nexthops").items, ∀ v, hop.get? "gateway" = some v → v.isString

structure HopReplayable (hop : Json) : Prop where
  plain : ∀ k ∈ hopRewrites, hop.get? k.1 = none
  weight : (hopWeight hop).isSome
  gateway : (hop.get "gateway").asStr.all address
  flags : (hop.get? "flags").all supportedRouteFlags

structure Replayable (route : Json) : Prop where
  kept : route.get? "to" = none
  flags : (route.get? "flags").all supportedRouteFlags
  plain : ∀ k ∈ routeRewrites, route.get? k.1 = none
  scope : ∃ scope, routeScope route = .ok scope ∧
    ((route.get? "nexthops").isSome → scope = .global)
  pref : (route.get? "pref").all (· = .str "medium")
  destination : token (routeDestination route)
  gateway : (route.get "gateway").asStr.all address
  source : (route.get "prefsrc").asStr.all address

/-- The route alone is a reason to refuse the selection: its hops are no list or an empty one,
or all its paths are direct but not all that it says of them can be replayed. -/
def Refusable (devices : Finset String) (route : Json) : Prop :=
  foreign route = false ∧
    match route.get? "nexthops" with
    | none => direct devices route ∧ ¬ Replayable route
    | some hops => hops.items = [] ∨ (∀ hop ∈ hops.items, direct devices hop) ∧
        ¬ (hops.items.length ≤ 60 ∧ route.get? "dev" = none ∧ route.get? "gateway" = none ∧
          (∀ hop ∈ hops.items, HopReplayable hop) ∧ Replayable route)

theorem absent_ok_iff {v : Json} {keys : List (String × String)} {u : Unit} :
    absent v keys = .ok u ↔ ∀ k ∈ keys, v.get? k.1 = none := by
  induction keys with
  | nil => simp [absent]
  | cons k keys ih => simp [absent,bind_ok_iff,require_ok_iff,ih]

theorem nextHop_ok_iff {hop : Json} {n : NextHop} :
    nextHop hop = .ok n ↔ HopReplayable hop ∧ (hop.get "dev").asStr = some n.device ∧
      n.gateway = (hop.get "gateway").asStr ∧ hopWeight hop = some n.weight ∧
        n.onlink = flaggedOnlink hop := by
  unfold nextHop
  simp only [bind_ok_iff,absent_ok_iff]
  cases hweight : hopWeight hop with
  | none => simp
  | some weight =>
    simp only [bind_ok_iff,require_ok_iff]
    cases hdev : (hop.get "dev").asStr with
    | none => simp
    | some device =>
      constructor
      · rintro ⟨-,hplain,-,hgateway,-,hflags,h⟩
        obtain rfl := Except.ok.inj h
        exact ⟨⟨hplain,by simp [hweight],hgateway,hflags⟩,rfl,rfl,rfl,rfl⟩
      · rintro ⟨h,hd,hg,hw,ho⟩
        refine ⟨(),h.plain,(),h.gateway,(),h.flags,?_⟩
        cases n
        simp_all

theorem routeScope_ok_iff {route : Json} {scope : RouteScope} :
    routeScope route = .ok scope ↔ (route.get? "scope" = none ∧ scope = .global) ∨
      route.get? "scope" = some (.str scope.asStr) := by
  unfold routeScope
  cases h : route.get? "scope" with
  | none => simp [eq_comm]
  | some v =>
    cases scope <;> simp only [RouteScope.asStr] <;> split_ifs <;> simp_all

theorem replayed_ok_iff {route : Json} {device : String} {nexthops : List NextHop} {r : Route}
    (hpaths : nexthops = [] ↔ route.get? "nexthops" = none) :
    replayed route device nexthops = .ok r ↔
      Replayable route ∧ ∃ scope, routeScope route = .ok scope ∧
        r = routeOf route device nexthops scope := by
  have hmulti (scope : RouteScope) : (nexthops = [] ∨ scope = .global) ↔
      ((route.get? "nexthops").isSome → scope = .global) := by
    rw [hpaths]
    cases route.get? "nexthops" <;> simp
  unfold replayed
  simp only [bind_ok_iff,absent_ok_iff,require_ok_iff,List.mem_singleton,forall_eq,hmulti]
  constructor
  · rintro ⟨-,hkept,-,hflags,-,hplain,scope,hscope,-,hmultipath,-,hpref,-,⟨hd,hg,hs⟩,h⟩
    exact ⟨⟨hkept,hflags,hplain,⟨scope,hscope,hmultipath⟩,hpref,hd,hg,hs⟩,scope,hscope,
      (Except.ok.inj h).symm⟩
  · rintro ⟨h,scope,hscope,rfl⟩
    obtain ⟨scope',hscope',hmultipath⟩ := h.scope
    obtain rfl := Except.ok.inj (hscope.symm.trans hscope')
    exact ⟨(),h.kept,(),h.flags,(),h.plain,scope,hscope,(),hmultipath,(),h.pref,(),
      ⟨h.destination,h.gateway,h.source⟩,rfl⟩

theorem asStr_get {v : Json} {k s : String} : (v.get k).asStr = some s ↔ v.get? k = some (.str s) := by
  unfold Json.get
  cases v.get? k with
  | none => simp [asStr]
  | some x => cases x <;> simp [asStr]

/-- Read leniently, an attribute that is a text when it is there is read as it is. -/
theorem get?_eq_map {v : Json} {k : String} (h : ∀ x, v.get? k = some x → x.isString) :
    v.get? k = (v.get k).asStr.map .str := by
  unfold Json.get
  cases hk : v.get? k with
  | none => rfl
  | some x =>
    have hx := h x hk
    cases x <;> simp_all [isString,asStr]

theorem flags_projected {v : Json} (h : (v.get? "flags").all supportedRouteFlags) :
    FlagsProjected v (flaggedOnlink v) := by
  unfold FlagsProjected flaggedOnlink Json.get
  cases hf : v.get? "flags" with
  | none => exact .inl ⟨rfl,rfl⟩
  | some flags =>
    rw [hf] at h
    obtain ⟨fs,hfs,hall⟩ := (Option.any_eq_true _ _).mp (h : supportedRouteFlags flags)
    obtain rfl : flags = .arr fs := by
      cases flags <;> simp_all [asArray]
    have htexts : ∀ f ∈ fs, f ∈ Set.range Json.str := by
      intro f hin
      obtain ⟨s,hs,-⟩ := (Option.any_eq_true _ _).mp (List.all_eq_true.mp hall f hin)
      refine ⟨s,?_⟩
      cases f <;> simp_all [asStr]
    obtain ⟨texts,rfl⟩ : fs ∈ Set.range (List.map Json.str) := by
      rwa [Set.range_list_map]
    exact .inr ⟨texts,rfl,by simp [asArray]⟩

theorem hop_projected {hop : Json} {n : NextHop} (h : nextHop hop = .ok n)
    (hgateway : ∀ v, hop.get? "gateway" = some v → v.isString) : HopProjected hop n := by
  obtain ⟨hreplayable,hdevice,hg,hweight,honlink⟩ := nextHop_ok_iff.mp h
  refine ⟨asStr_get.mp hdevice,hg ▸ get?_eq_map hgateway,?_,?_,hreplayable.plain⟩
  · have hw := (Option.filter_eq_some_iff.mp hweight).1
    cases hk : hop.get? "weight" with
    | none =>
      rw [hk] at hw
      exact .inl ⟨rfl,(Option.some.inj hw).symm⟩
    | some w =>
      rw [hk] at hw
      exact .inr ⟨w,rfl,hw⟩
  · rw [honlink]
    exact flags_projected hreplayable.flags

theorem hops_projected {hops : List Json} {ns : List NextHop}
    (h : List.Forall₂ (fun hop n => nextHop hop = .ok n) hops ns)
    (hgateways : ∀ hop ∈ hops, ∀ v, hop.get? "gateway" = some v → v.isString) :
    List.Forall₂ HopProjected hops ns := by
  induction h with
  | nil => exact .nil
  | cons hn _ ih =>
    exact .cons (hop_projected hn (hgateways _ (by simp)))
      (ih fun hop hin => hgateways hop (by simp [hin]))

theorem forall₂_mem {α β : Type} {R : α → β → Prop} {as : List α} {bs : List β}
    (h : List.Forall₂ R as bs) {a : α} (ha : a ∈ as) : ∃ b ∈ bs, R a b := by
  induction h with
  | nil => cases ha
  | cons hab _ ih =>
    rcases List.mem_cons.mp ha with rfl | ha
    · exact ⟨_,by simp,hab⟩
    · obtain ⟨b,hb,hr⟩ := ih ha
      exact ⟨b,by simp [hb],hr⟩

theorem hop_documented {hop : Json} {n : NextHop} (h : HopProjected hop n) :
    ∀ v, hop.get? "gateway" = some v → v.isString := by
  intro v hv
  rw [h.gateway] at hv
  obtain ⟨s,-,rfl⟩ := Option.map_eq_some_iff.mp hv
  rfl

theorem route_projected {route : Json} {device : String} {nexthops : List NextHop}
    {scope : RouteScope} (hreplayable : Replayable route) (hscope : routeScope route = .ok scope)
    (h : Documented route)
    (hpaths : (route.get? "nexthops" = none ∧ route.get? "dev" = some (.str device) ∧
        nexthops = []) ∨
      ∃ hops, route.get? "nexthops" = some (.arr hops) ∧ device = "" ∧ hops ≠ [] ∧
        List.Forall₂ HopProjected hops nexthops) :
    Projected route (routeOf route device nexthops scope) := by
  refine ⟨?_,get?_eq_map h.gateway,get?_eq_map h.source,?_,routeScope_ok_iff.mp hscope,
    flags_projected hreplayable.flags,hpaths,hreplayable.kept,hreplayable.plain⟩
  · have hd := get?_eq_map h.destination
    cases ht : (route.get "dst").asStr with
    | none => exact .inl ⟨by rw [hd,ht]; rfl,by simp [routeOf,routeDestination,ht]⟩
    | some d => exact .inr (by rw [hd,ht]; simp [routeOf,routeDestination,ht])
  · cases hm : route.get? "metric" with
    | none => exact .inl ⟨rfl,by simp [routeOf,Json.get,hm,asU64]⟩
    | some m =>
      obtain ⟨n,hn⟩ := Option.isSome_iff_exists.mp (h.metric m hm)
      exact .inr ⟨m,rfl,by simp [routeOf,Json.get,hm,hn]⟩

theorem route_documented {route : Json} {r : Route} (h : Projected route r) : Documented route := by
  have htext {k : String} {x : Option String} (hx : route.get? k = x.map .str) (v : Json)
      (hv : route.get? k = some v) : v.isString := by
    rw [hx] at hv
    obtain ⟨s,-,rfl⟩ := Option.map_eq_some_iff.mp hv
    rfl
  refine ⟨?_,htext h.gateway,htext h.source,?_,?_⟩
  · intro v hv
    rcases h.destination with ⟨hd,-⟩ | hd
    · rw [hd] at hv
      cases hv
    · rw [hd] at hv
      obtain rfl := Option.some.inj hv
      rfl
  · intro v hv
    rcases h.metric with ⟨hm,-⟩ | ⟨m,hm,hn⟩
    · rw [hm] at hv
      cases hv
    · rw [hm] at hv
      obtain rfl := Option.some.inj hv
      rw [hn]
      rfl
  · intro hop hin
    rcases h.paths with ⟨hnone,-⟩ | ⟨hops,hhops,-,-,hall⟩
    · simp [Json.get,hnone,Json.items,asArray] at hin
    · have hitems : (route.get "nexthops").items = hops := by
        simp [Json.get,hhops,Json.items,asArray]
      rw [hitems] at hin
      obtain ⟨n,-,hn⟩ := forall₂_mem hall hin
      exact hop_documented hn

section
variable {devices : Finset String} {route : Json}

theorem hops_total {hops : List Json} (h : ∀ hop ∈ hops, HopReplayable hop)
    (hdirect : ∀ hop ∈ hops, direct devices hop) : ∃ ns, hops.mapM nextHop = .ok ns := by
  induction hops with
  | nil => exact ⟨[],rfl⟩
  | cons hop hops ih =>
    obtain ⟨ns,hns⟩ := ih (fun hop hin => h hop (by simp [hin]))
      fun hop hin => hdirect hop (by simp [hin])
    have hhop := h hop (by simp)
    obtain ⟨device,hdevice,-⟩ := (Option.any_eq_true _ _).mp (hdirect hop (by simp))
    obtain ⟨weight,hweight⟩ := Option.isSome_iff_exists.mp hhop.weight
    have hn : nextHop hop = .ok ⟨device,(hop.get "gateway").asStr,weight,flaggedOnlink hop⟩ :=
      nextHop_ok_iff.mpr ⟨hhop,hdevice,rfl,hweight,rfl⟩
    refine ⟨_::ns,mapM_ok_iff.mpr (.cons hn (mapM_ok_iff.mp hns))⟩

/-- What a selection does with a route that is of its kind of traffic. -/
theorem selectRoute_cases {o : Option Route} (h : selectRoute devices route = .ok o)
    (hkind : foreign route = false) :
    (route.get? "nexthops" = none ∧
      ((direct devices route = false ∧ o = none) ∨ (direct devices route ∧ Replayable route ∧
        ∃ device scope, (route.get "dev").asStr = some device ∧ routeScope route = .ok scope ∧
          o = some (routeOf route device [] scope)))) ∨
    ∃ hops, route.get? "nexthops" = some (.arr hops) ∧ hops ≠ [] ∧
      ((¬ (∀ hop ∈ hops, direct devices hop) ∧ o = none) ∨
        ((∀ hop ∈ hops, direct devices hop) ∧ hops.length ≤ 60 ∧ route.get? "dev" = none ∧
          route.get? "gateway" = none ∧ Replayable route ∧
          ∃ ns scope, List.Forall₂ (fun hop n => nextHop hop = .ok n) hops ns ∧
            routeScope route = .ok scope ∧ o = some (routeOf route "" ns scope))) := by
  unfold selectRoute at h
  rw [hkind,if_neg (by simp)] at h
  obtain ⟨hs,hhs,h⟩ := bind_ok h
  unfold routeHops at hhs
  cases hnext : route.get? "nexthops" with
  | none =>
    rw [hnext] at hhs
    obtain rfl := Except.ok.inj hhs
    refine .inl ⟨rfl,?_⟩
    simp only [↓reduceIte] at h
    cases hdev : (route.get "dev").asStr.filter (· ∈ devices) with
    | none =>
      rw [hdev] at h
      refine .inl ⟨?_,(Except.ok.inj h).symm⟩
      cases hd : (route.get "dev").asStr with
      | none => simp [direct,hd]
      | some d => simpa [direct,hd,Option.filter_some] using hdev
    | some device =>
      rw [hdev] at h
      obtain ⟨r,hr,h⟩ := bind_ok h
      obtain ⟨hreplayable,scope,hscope,rfl⟩ := (replayed_ok_iff (by simp [hnext])).mp hr
      obtain ⟨hd,hin⟩ := Option.filter_eq_some_iff.mp hdev
      exact .inr ⟨by simpa [direct,hd] using hin,hreplayable,device,scope,hd,hscope,
        (Except.ok.inj h).symm⟩
  | some v =>
    rw [hnext] at hhs
    dsimp only at hhs
    cases hitems : v.asArray.filter (· ≠ []) with
    | none =>
      rw [hitems] at hhs
      cases hhs
    | some hops =>
      rw [hitems] at hhs
      obtain ⟨hv,hne⟩ := Option.filter_eq_some_iff.mp hitems
      obtain rfl : v = .arr hops := by
        cases v <;> simp_all [asArray]
      refine .inr ⟨hops,rfl,by simpa using hne,?_⟩
      dsimp only at hhs
      split at hhs
      · rename_i hany
        obtain rfl := Except.ok.inj hhs
        refine .inl ⟨?_,(Except.ok.inj h).symm⟩
        obtain ⟨hop,hin,hhop⟩ := List.any_eq_true.mp hany
        intro hall
        simp [hall hop hin] at hhop
      · rename_i hany
        simp only [bind_ok_iff,require_ok_iff] at hhs
        obtain ⟨-,hlength,-,⟨hdev,hgateway⟩,ns,hns,hhs⟩ := hhs
        obtain rfl := Except.ok.inj hhs
        have hns := mapM_ok_iff.mp hns
        have hne : ns ≠ [] := by
          rintro rfl
          rw [List.forall₂_nil_right_iff] at hns
          simp [hns] at hne
        simp only [hne,↓reduceIte] at h
        obtain ⟨r,hr,h⟩ := bind_ok h
        obtain ⟨hreplayable,scope,hscope,rfl⟩ :=
          (replayed_ok_iff (by simp [hnext,hne])).mp hr
        refine .inr ⟨?_,hlength,by simpa using hdev,by simpa using hgateway,hreplayable,ns,scope,
          hns,hscope,(Except.ok.inj h).symm⟩
        intro hop hin
        by_contra hhop
        exact hany (List.any_eq_true.mpr ⟨hop,hin,by simpa using hhop⟩)

theorem eligible_path (hkind : foreign route = false) (h : route.get? "nexthops" = none) :
    eligibleRoute devices route = direct devices route := by
  simp [eligibleRoute,hkind,h]

theorem eligible_hops (hkind : foreign route = false) {hops : List Json} (hne : hops ≠ [])
    (h : route.get? "nexthops" = some (.arr hops)) :
    eligibleRoute devices route ↔ ∀ hop ∈ hops, direct devices hop := by
  simp [eligibleRoute,hkind,h,Json.items,asArray,hne]

theorem foreign_passed (hkind : foreign route = true) :
    selectRoute devices route = .ok none ∧ eligibleRoute devices route = false := by
  simp [selectRoute,eligibleRoute,hkind]

theorem selectRoute_projected {o : Option Route} (h : selectRoute devices route = .ok o)
    (hdocumented : eligibleRoute devices route → Documented route) :
    (o = none ∧ eligibleRoute devices route = false) ∨
      ∃ r, o = some r ∧ eligibleRoute devices route ∧ Projected route r := by
  cases hkind : foreign route with
  | true =>
    obtain ⟨hnone,hfalse⟩ := @foreign_passed devices _ hkind
    rw [h] at hnone
    exact .inl ⟨Except.ok.inj hnone,hfalse⟩
  | false =>
    rcases selectRoute_cases h hkind with ⟨hnext,hpath⟩ | ⟨hops,hnext,hne,hhops⟩
    · rcases hpath with ⟨hdirect,rfl⟩ | ⟨hdirect,hreplayable,device,scope,hdev,hscope,rfl⟩
      · exact .inl ⟨rfl,by rw [eligible_path hkind hnext,hdirect]⟩
      · have heligible : eligibleRoute devices route := by rwa [eligible_path hkind hnext]
        refine .inr ⟨_,rfl,heligible,route_projected hreplayable hscope (hdocumented heligible) ?_⟩
        exact .inl ⟨hnext,asStr_get.mp hdev,rfl⟩
    · rcases hhops with ⟨hdirect,rfl⟩ | ⟨hdirect,-,-,-,hreplayable,ns,scope,hns,hscope,rfl⟩
      · refine .inl ⟨rfl,?_⟩
        rwa [← Bool.not_eq_true,eligible_hops hkind hne hnext]
      · have heligible := (eligible_hops hkind hne hnext).mpr hdirect
        have hd := hdocumented heligible
        refine .inr ⟨_,rfl,heligible,route_projected hreplayable hscope hd ?_⟩
        refine .inr ⟨hops,hnext,rfl,hne,?_⟩
        have hgateways : ∀ hop ∈ hops, ∀ v, hop.get? "gateway" = some v → v.isString := by
          simpa [Json.get,hnext,Json.items,asArray] using hd.hops
        exact hops_projected hns hgateways

/-- A selection gets past a route exactly when the route is no reason to refuse it. -/
theorem selectRoute_refuses :
    (∃ o, selectRoute devices route = .ok o) ↔ ¬ Refusable devices route := by
  constructor
  · rintro ⟨o,h⟩ ⟨hkind,hrefuse⟩
    rcases selectRoute_cases h hkind with ⟨hnext,hpath⟩ | ⟨hops,hnext,hne,hhops⟩
    · rw [hnext] at hrefuse
      rcases hpath with ⟨hdirect,-⟩ | ⟨-,hreplayable,-⟩
      · exact absurd hrefuse.1 (by simp [hdirect])
      · exact hrefuse.2 hreplayable
    · have hitems : (Json.arr hops).items = hops := rfl
      simp only [hnext,hitems] at hrefuse
      rcases hrefuse with hnil | ⟨hdirect,hbad⟩
      · exact hne hnil
      · rcases hhops with ⟨hnot,-⟩ | ⟨-,hlength,hdev,hgateway,hreplayable,ns,-,hns,-⟩
        · exact hnot hdirect
        · refine hbad ⟨hlength,hdev,hgateway,fun hop hin => ?_,hreplayable⟩
          obtain ⟨n,-,hn⟩ := forall₂_mem hns hin
          exact (nextHop_ok_iff.mp hn).1
  · intro h
    cases hkind : foreign route with
    | true => exact ⟨none,(foreign_passed hkind).1⟩
    | false =>
      have hgood : ¬ _ := fun hrefuse => h ⟨hkind,hrefuse⟩
      unfold selectRoute routeHops
      simp only [hkind,Bool.false_eq_true,if_false]
      cases hnext : route.get? "nexthops" with
      | none =>
        simp only [hnext,not_and,not_not] at hgood
        simp only [bind_ok_iff]
        cases hdev : (route.get "dev").asStr.filter (· ∈ devices) with
        | none => exact ⟨none,some [],rfl,by simp⟩
        | some device =>
          obtain ⟨hd,hin⟩ := Option.filter_eq_some_iff.mp hdev
          have hreplayable := hgood (by simpa [direct,hd] using hin)
          obtain ⟨scope,hscope,-⟩ := hreplayable.scope
          refine ⟨some (routeOf route device [] scope),some [],rfl,?_⟩
          simp only [↓reduceIte,bind_ok_iff]
          exact ⟨_,(replayed_ok_iff (by simp [hnext])).mpr ⟨hreplayable,scope,hscope,rfl⟩,rfl⟩
      | some v =>
        simp only [hnext] at hgood
        obtain ⟨hne,hgood⟩ := not_or.mp hgood
        obtain ⟨hops,rfl⟩ : ∃ hops, v = .arr hops := by
          cases v with
          | arr hops => exact ⟨hops,rfl⟩
          | _ => exact absurd rfl hne
        have hne : hops ≠ [] := hne
        have harray : (Json.arr hops).asArray.filter (· ≠ []) = some hops := by
          simp [asArray,Option.filter_some,hne]
        simp only [harray,bind_ok_iff]
        by_cases hdirect : ∀ hop ∈ hops, direct devices hop
        · obtain ⟨hlength,hdev,hgateway,hhops,hreplayable⟩ :=
            not_not.mp fun hbad => hgood ⟨hdirect,hbad⟩
          have hany : hops.any (fun hop => !direct devices hop) = false := by
            simpa using hdirect
          obtain ⟨ns,hns⟩ := hops_total hhops hdirect
          have hnil : ns ≠ [] := by
            rintro rfl
            exact hne (List.forall₂_nil_right_iff.mp (mapM_ok_iff.mp hns))
          obtain ⟨scope,hscope,-⟩ := hreplayable.scope
          refine ⟨some (routeOf route "" ns scope),some ns,?_,?_⟩
          · simp only [hany,Bool.false_eq_true,if_false,bind_ok_iff,require_ok_iff]
            exact ⟨(),hlength,(),by simp [hdev,hgateway],ns,hns,rfl⟩
          · simp only [hnil,↓reduceIte,bind_ok_iff]
            exact ⟨_,(replayed_ok_iff (by simp [hnext,hnil])).mpr
              ⟨hreplayable,scope,hscope,rfl⟩,rfl⟩
        · have hany : hops.any (fun hop => !direct devices hop) = true := by
            simpa using hdirect
          exact ⟨none,none,by rw [if_pos hany],rfl⟩

theorem rows_total {rows : List Json} (h : ∀ route ∈ rows, ¬ Refusable devices route) :
    ∃ os, rows.mapM (selectRoute devices) = .ok os := by
  induction rows with
  | nil => exact ⟨[],rfl⟩
  | cons route rows ih =>
    obtain ⟨os,hos⟩ := ih fun route hin => h route (by simp [hin])
    obtain ⟨o,ho⟩ := selectRoute_refuses.mpr (h route (by simp))
    exact ⟨o::os,mapM_ok_iff.mpr (.cons ho (mapM_ok_iff.mp hos))⟩

theorem rows_projected {rows : List Json} {os : List (Option Route)}
    (h : List.Forall₂ (fun route o => selectRoute devices route = .ok o) rows os)
    (hdocumented : ∀ route ∈ rows, eligibleRoute devices route → Documented route) :
    List.Forall₂ Projected (rows.filter (eligibleRoute devices)) os.reduceOption := by
  induction h with
  | nil => exact .nil
  | cons ho _ ih =>
    have hrest := ih fun route hin => hdocumented route (by simp [hin])
    rcases selectRoute_projected ho (hdocumented _ (by simp)) with ⟨rfl,hnot⟩ | ⟨r,rfl,heligible,hr⟩
    · rw [List.filter_cons_of_neg (by simp [hnot]),List.reduceOption_cons_of_none]
      exact hrest
    · rw [List.filter_cons_of_pos heligible,List.reduceOption_cons_of_some]
      exact .cons hr hrest

end

theorem selectRoutes_ok {policy : Policy} {links routes : Json} {selected : List Route} :
    selectRoutes policy links routes = .ok selected ↔ ∃ devices rows os,
      directDevices policy links = .ok devices ∧ routes = .arr rows ∧
        rows.mapM (selectRoute devices) = .ok os ∧
          selected = os.reduceOption.insertionSort connectedFirst := by
  unfold selectRoutes
  rw [bind_ok_iff]
  constructor
  · rintro ⟨devices,hdevices,h⟩
    cases routes with
    | arr rows =>
      obtain ⟨os,hos,h⟩ := bind_ok h
      exact ⟨devices,rows,os,hdevices,rfl,hos,(Except.ok.inj h).symm⟩
    | _ => cases h
  · rintro ⟨devices,rows,os,hdevices,rfl,hos,rfl⟩
    exact ⟨devices,hdevices,bind_ok_iff.mpr ⟨os,hos,rfl⟩⟩

/-- A route by way of an address that is no text, and of a metric that is no number. -/
def mistyped : Json :=
  .obj [("dev",.str "eth0"),("dst",.str "192.0.2.0/24"),("gateway",.int 7),("metric",.str "high")]

def mistypedRoute : Route where
  destination := "192.0.2.0/24"
  device := "eth0"
  gateway := none
  source := none
  metric := 0
  scope := .global
  isLocal := true
  onlink := false
  nexthops := []

end DirectNetwork
end CanixToolbelt
