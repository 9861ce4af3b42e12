import CanixToolbelt.Closure
import CanixToolbelt.Json

/-! Devices and routes of the direct network: which links of a snapshot lead to an eligible
uplink, and which main-table routes can be replayed over them. -/
namespace CanixToolbelt
namespace DirectNetwork
open Json

/-- The parts of the root-owned policy that select devices. -/
structure Policy where
  directInterfaces : List String

def tokenChar (c : Char) : Bool :=
  c.isAlphanum || c ∈ ['_','.','-','/',':','@']

def token (value : String) : Bool := value ≠ "" && value.toList.all tokenChar

/-! ## Devices -/

def ifname (link : Json) : Option String := (link.get "ifname").asStr
def infoKind (link : Json) : Option String := ((link.get "linkinfo").get "info_kind").asStr

def physical (link : Json) : Bool :=
  link.get "link_type" = .str "ether" && (infoKind link).isNone

def eligible (policy : Policy) (link : Json) : Option String :=
  (ifname link).filter fun name =>
    token name && (physical link || name ∈ policy.directInterfaces)

/-- The member names the link as its master, or gives its index. -/
def enslaved (member link : Json) (name : String) : Bool :=
  (member.get "master").asStr = some name ||
    (link.get "ifindex").asU64.isSome &&
      (member.get "master").asU64 = (link.get "ifindex").asU64

def backed (links : List Json) (devices : Finset String) (link : Json) (name : String) : Bool :=
  if infoKind link = some "bridge" ∨ infoKind link = some "bond" then
    links.any fun member => (ifname member).any (· ∈ devices) && enslaved member link name
  else if infoKind link = some "vlan" then (link.get "link").asStr.any (· ∈ devices)
  else false

/-- The device that a link adds to those found so far. -/
def found (links : List Json) (devices : Finset String) (link : Json) : Option String :=
  (ifname link).filter fun name => token name && backed links devices link name

def directDevices (policy : Policy) (links : Json) : Except String (Finset String) :=
  match links.asArray.filter (·.length ≤ 4096) with
  | none => .error "invalid or oversized link snapshot"
  | some links =>
    .ok (Closure.rounds (found links) links 64 (links.filterMap (eligible policy)).toFinset)

/-- A physical Ethernet or an enrolled device of the snapshot. -/
inductive Direct (policy : Policy) (links : List Json) (device : String) : Prop
  | physical (link : Json) : link ∈ links → ifname link = some device → token device →
      DirectNetwork.physical link → Direct policy links device
  | enrolled (link : Json) : link ∈ links → ifname link = some device → token device →
      device ∈ policy.directInterfaces → Direct policy links device

/-- A device below the link: a member of the bridge or bond that it is, or its VLAN parent. -/
inductive Below (links : List Json) (link : Json) (name lower : String) : Prop
  | bridge (member : Json) : infoKind link = some "bridge" → member ∈ links →
      ifname member = some lower → enslaved member link name → Below links link name lower
  | bond (member : Json) : infoKind link = some "bond" → member ∈ links →
      ifname member = some lower → enslaved member link name → Below links link name lower
  | vlan : infoKind link = some "vlan" → (link.get "link").asStr = some lower →
      Below links link name lower

/-- The upper device is a link over the lower one. -/
def Over (links : List Json) (lower upper : String) : Prop :=
  ∃ link ∈ links, ifname link = some upper ∧ token upper ∧ Below links link upper lower

theorem eligible_iff {policy : Policy} {links : List Json} {device : String} :
    device ∈ (links.filterMap (eligible policy)).toFinset ↔ Direct policy links device := by
  simp only [List.mem_toFinset,List.mem_filterMap,eligible,Option.filter_eq_some_iff,
    Bool.and_eq_true,Bool.or_eq_true,decide_eq_true_eq]
  constructor
  · rintro ⟨link,hlink,hname,htoken,hphysical | henrolled⟩
    · exact .physical link hlink hname htoken hphysical
    · exact .enrolled link hlink hname htoken henrolled
  · intro h
    cases h with
    | physical link hlink hname htoken hphysical =>
      exact ⟨link,hlink,hname,htoken,.inl hphysical⟩
    | enrolled link hlink hname htoken henrolled =>
      exact ⟨link,hlink,hname,htoken,.inr henrolled⟩

theorem found_iff {links : List Json} {devices : Finset String} {link : Json} {name : String} :
    found links devices link = some name ↔
      ifname link = some name ∧ token name ∧ backed links devices link name := by
  simp only [found,Option.filter_eq_some_iff,Bool.and_eq_true]

theorem backed_iff {links : List Json} {devices : Finset String} {link : Json} {name : String} :
    backed links devices link name ↔ ∃ lower ∈ devices, Below links link name lower := by
  constructor
  · intro h
    unfold backed at h
    split_ifs at h with hmaster hvlan
    · obtain ⟨member,hmember,h⟩ := List.any_eq_true.mp h
      obtain ⟨hlower,henslaved⟩ := Bool.and_eq_true_iff.mp h
      obtain ⟨lower,hname,hlower⟩ := (Option.any_eq_true _ _).mp hlower
      have hin : lower ∈ devices := of_decide_eq_true hlower
      rcases hmaster with hbridge | hbond
      · exact ⟨lower,hin,.bridge member hbridge hmember hname henslaved⟩
      · exact ⟨lower,hin,.bond member hbond hmember hname henslaved⟩
    · obtain ⟨lower,hlink,hlower⟩ := (Option.any_eq_true _ _).mp h
      exact ⟨lower,of_decide_eq_true hlower,.vlan hvlan hlink⟩
  · rintro ⟨lower,hin,hbelow⟩
    have hany {v : Option String} (hv : v = some lower) : v.any (· ∈ devices) := by simp [hv,hin]
    unfold backed
    cases hbelow with
    | bridge member hkind hmember hname henslaved =>
      rw [if_pos (.inl hkind)]
      exact List.any_eq_true.mpr ⟨member,hmember,by simp [hany hname,henslaved]⟩
    | bond member hkind hmember hname henslaved =>
      rw [if_pos (.inr hkind)]
      exact List.any_eq_true.mpr ⟨member,hmember,by simp [hany hname,henslaved]⟩
    | vlan hkind hlink => simp [hkind,hany hlink]

theorem found_mono {links : List Json} (s t : Finset String) (hst : s ⊆ t) (link : Json)
    (_ : link ∈ links) (name : String) (h : found links s link = some name) :
    found links t link = some name := by
  obtain ⟨hname,htoken,hbacked⟩ := found_iff.mp h
  obtain ⟨lower,hin,hbelow⟩ := backed_iff.mp hbacked
  exact found_iff.mpr ⟨hname,htoken,backed_iff.mpr ⟨lower,hst hin,hbelow⟩⟩

theorem over_pass {links : List Json} (s : Finset String) (lower : String) (hin : lower ∈ s)
    (upper : String) (h : Over links lower upper) :
    upper ∈ Closure.pass (found links) links s := by
  obtain ⟨link,hlink,hname,htoken,hbelow⟩ := h
  exact Closure.pass_fires found_mono hlink
    (found_iff.mpr ⟨hname,htoken,backed_iff.mpr ⟨lower,hin,hbelow⟩⟩)

/-- A device that leads to an eligible uplink by so many lower devices. -/
def Backed (policy : Policy) (links : List Json) : ℕ → String → Prop :=
  Closure.Chain (Over links) (Direct policy links)

theorem directDevices_ok {policy : Policy} {links : List Json} (hbound : links.length ≤ 4096) :
    directDevices policy (.arr links) = .ok
      (Closure.rounds (found links) links 64 (links.filterMap (eligible policy)).toFinset) := by
  have harray : (Json.arr links).asArray.filter (·.length ≤ 4096) = some links := by
    simp [asArray,Option.filter_some,hbound]
  simp only [directDevices,harray]

theorem directDevices_oversized {policy : Policy} {links : List Json}
    (hbound : 4096 < links.length) :
    directDevices policy (.arr links) = .error "invalid or oversized link snapshot" := by
  have harray : (Json.arr links).asArray.filter (·.length ≤ 4096) = none := by
    simp [asArray,Option.filter_some,hbound]
  simp only [directDevices,harray]

theorem found_backed {policy : Policy} {links : List Json} (s : Finset String)
    (hs : ∀ d ∈ s, ∃ n, Backed policy links n d) (link : Json) (hlink : link ∈ links)
    (upper : String) (h : found links s link = some upper) : ∃ n, Backed policy links n upper := by
  obtain ⟨hname,htoken,hbacked⟩ := found_iff.mp h
  obtain ⟨lower,hin,hbelow⟩ := backed_iff.mp hbacked
  obtain ⟨n,hn⟩ := hs lower hin
  exact ⟨n+1,hn.step ⟨link,hlink,hname,htoken,hbelow⟩⟩

theorem directDevices_backed {policy : Policy} {links : List Json} {devices : Finset String}
    (h : directDevices policy (.arr links) = .ok devices) {d : String} (hd : d ∈ devices) :
    ∃ n, Backed policy links n d := by
  by_cases hbound : links.length ≤ 4096
  · obtain rfl := Except.ok.inj ((directDevices_ok hbound).symm.trans h)
    exact Closure.rounds_closed found_backed 64
      (fun d hd => ⟨0,.base (eligible_iff.mp hd)⟩) d hd
  · rw [directDevices_oversized (by omega)] at h
    cases h

theorem backed_found {policy : Policy} {links : List Json} {n : ℕ} (hn : n ≤ 64) {d : String}
    (h : Backed policy links n d) :
    d ∈ Closure.rounds (found links) links 64 (links.filterMap (eligible policy)).toFinset :=
  Closure.rounds_complete over_pass hn (h.mono fun _ => eligible_iff.mpr)

theorem Direct.perm {policy : Policy} {links links' : List Json} (hperm : links.Perm links')
    {d : String} (h : Direct policy links d) : Direct policy links' d := by
  cases h with
  | physical link hlink hname htoken hp =>
    exact .physical link (hperm.mem_iff.mp hlink) hname htoken hp
  | enrolled link hlink hname htoken he =>
    exact .enrolled link (hperm.mem_iff.mp hlink) hname htoken he

theorem Over.perm {links links' : List Json} (hperm : links.Perm links') {lower upper : String}
    (h : Over links lower upper) : Over links' lower upper := by
  obtain ⟨link,hlink,hname,htoken,hbelow⟩ := h
  refine ⟨link,hperm.mem_iff.mp hlink,hname,htoken,?_⟩
  cases hbelow with
  | bridge member hkind hmember hn he => exact .bridge member hkind (hperm.mem_iff.mp hmember) hn he
  | bond member hkind hmember hn he => exact .bond member hkind (hperm.mem_iff.mp hmember) hn he
  | vlan hkind hlink => exact .vlan hkind hlink

theorem Backed.perm {policy : Policy} {links links' : List Json} (hperm : links.Perm links')
    {n : ℕ} {d : String} (h : Backed policy links n d) : Backed policy links' n d := by
  induction h with
  | base h => exact .base (h.perm hperm)
  | step _ hover ih => exact ih.step (hover.perm hperm)

/-- Every device returned is backed. Of a list within the bound whose chains are no longer than
the passes, every backed device is returned, whatever the order of the list. -/
theorem devices_exact (policy : Policy) (links : List Json) :
    (∀ devices, directDevices policy (.arr links) = .ok devices →
      ∀ d ∈ devices, ∃ n, Backed policy links n d) ∧
    (links.length ≤ 4096 →
      (∀ d, (∃ n, Backed policy links n d) → ∃ n ≤ 64, Backed policy links n d) →
      ∃ devices, directDevices policy (.arr links) = .ok devices ∧
        (∀ d, (∃ n, Backed policy links n d) → d ∈ devices) ∧
        ∀ links', links.Perm links' → directDevices policy (.arr links') = .ok devices) := by
  refine ⟨fun devices h d hd => directDevices_backed h hd,fun hbound hshort => ?_⟩
  have hall {d : String} (hd : ∃ n, Backed policy links n d) :
      d ∈ Closure.rounds (found links) links 64 (links.filterMap (eligible policy)).toFinset := by
    obtain ⟨n,hn,hd⟩ := hshort d hd
    exact backed_found hn hd
  refine ⟨_,directDevices_ok hbound,fun d hd => hall hd,fun links' hperm => ?_⟩
  have hok := @directDevices_ok policy _ (hperm.length_eq ▸ hbound)
  rw [hok]
  refine congrArg Except.ok (Finset.ext fun d => ⟨fun hd => ?_,fun hd => ?_⟩)
  · obtain ⟨n,hn⟩ := directDevices_backed hok hd
    exact hall ⟨n,hn.perm hperm.symm⟩
  · obtain ⟨n,hn⟩ := directDevices_backed (directDevices_ok hbound) hd
    obtain ⟨k,hk,hd⟩ := hshort d ⟨n,hn⟩
    exact backed_found hk (hd.perm hperm)

/-- A bridge, and its one member. -/
def bridge : Json :=
  .obj [("ifname",.str "br0"),("linkinfo",.obj [("info_kind",.str "bridge")])]
def member : Json :=
  .obj [("ifname",.str "eth0"),("link_type",.str "ether"),("master",.str "br0")]

theorem bridge_over {lower upper : String} (h : Over [bridge,member] lower upper) :
    lower = "eth0" := by
  obtain ⟨link,hlink,hname,-,hbelow⟩ := h
  have hkind : infoKind member = none := by decide
  have hslave : enslaved bridge bridge "br0" = false := by decide
  simp only [List.mem_cons,List.not_mem_nil,or_false] at hlink
  rcases hlink with rfl | rfl
  · obtain rfl : "br0" = upper := Option.some.inj (hname ▸ by decide : some "br0" = some upper)
    cases hbelow with
    | bridge m _ hm hlower henslaved =>
      simp only [List.mem_cons,List.not_mem_nil,or_false] at hm
      rcases hm with rfl | rfl
      · rw [hslave] at henslaved
        cases henslaved
      · exact (Option.some.inj (hlower ▸ by decide : some "eth0" = some lower)).symm
    | bond _ h => exact absurd h (by decide)
    | vlan h => exact absurd h (by decide)
  · cases hbelow with
    | bridge _ h => exact absurd h (by decide)
    | bond _ h => exact absurd h (by decide)
    | vlan h => exact absurd h (by decide)

theorem member_direct : Direct ⟨[]⟩ [bridge,member] "eth0" :=
  .physical member (by simp) (by decide) (by decide) (by decide)

theorem bridge_short (d : String) (h : ∃ n, Backed ⟨[]⟩ [bridge,member] n d) :
    ∃ n ≤ 64, Backed ⟨[]⟩ [bridge,member] n d := by
  obtain ⟨n,h⟩ := h
  cases h with
  | base h => exact ⟨0,by omega,.base h⟩
  | step _ hover =>
    obtain rfl := bridge_over hover
    exact ⟨1,by omega,.step (.base member_direct) hover⟩

theorem bridge_devices :
    (∃ devices, directDevices ⟨[]⟩ (.arr [bridge,member]) = .ok devices ∧
      directDevices ⟨[]⟩ (.arr [member,bridge]) = .ok devices ∧ "br0" ∈ devices) := by
  obtain ⟨devices,hok,hall,hperm⟩ :=
    (devices_exact ⟨[]⟩ [bridge,member]).2 (by decide) bridge_short
  refine ⟨devices,hok,hperm _ (List.Perm.swap _ _ _),hall "br0" ⟨1,?_⟩⟩
  refine .step (.base member_direct) ⟨bridge,by simp,by decide,by decide,?_⟩
  exact .bridge member (by decide) (by simp) (by decide) (by decide)

/-- A physical device whose name is no token. -/
def oddity : Json := .obj [("ifname",.str "eth#0"),("link_type",.str "ether")]

/-- A list beyond the bound is refused, and a device with a name that is no token passed over. -/
theorem physical_device_missed :
    (Direct ⟨[]⟩ (List.replicate 4097 member) "eth0" ∧
      (∀ lower upper, ¬ Over (List.replicate 4097 member) lower upper) ∧
      directDevices ⟨[]⟩ (.arr (List.replicate 4097 member)) =
        .error "invalid or oversized link snapshot") ∧
    (ifname oddity = some "eth#0" ∧ physical oddity ∧
      directDevices ⟨[]⟩ (.arr [oddity]) = .ok ∅) := by
  refine ⟨⟨?_,?_,directDevices_oversized (by rw [List.length_replicate]; omega)⟩,by decide⟩
  · exact .physical member (List.mem_replicate.mpr ⟨by omega,rfl⟩) (by decide) (by decide) (by decide)
  · rintro lower upper ⟨link,hlink,-,-,hbelow⟩
    obtain rfl := (List.mem_replicate.mp hlink).2
    cases hbelow with
    | bridge _ h => exact absurd h (by decide)
    | bond _ h => exact absurd h (by decide)
    | vlan h => exact absurd h (by decide)

end DirectNetwork
end CanixToolbelt
