import CanixToolbelt.OrchestrationRecords
import CanixToolbelt.OrchestrationAtomic
import CanixToolbelt.OrchestrationRetirement

/-! A refresh is transactional, and one right after another changes nothing. -/
namespace CanixToolbelt
namespace Orchestration

open Fallible Json Canonical

variable {lib : Library} {policy : Policy} {inputs : Inputs} {p : Packet}

/-! ## An owner at rest -/

/-- What the next refresh of the owner `p` would write stands in the journal already. -/
structure Rests (lib : Library) (policy : Policy) (inputs : Inputs) (p : Packet) (j : Journal)
    (ps : Row) (d : String) (items : List Json) : Prop where
  objects : j.Objects
  stored : j.packets.set (toString p.number) ps.json = j.packets
  checked : checkRow p.number ps.json = .ok ps
  recorded : ∀ u ∈ p.prs, j.prs.set u (j.pr u) = j.prs
  observed : ∀ u ∈ p.prs, Observed lib u ps (j.pr u)
  row : refreshRow lib policy inputs p (sources inputs p j) ps = .ok (ps,d)
  reported : reported p.number (sources inputs p j) ps = .ok items
  revised : ∀ u ∈ p.prs,
    reviseProgress lib p (sources inputs p j) d ps items j.prs u = j.prs

namespace Rests
variable {j k : Journal} {ps : Row} {d : String} {items : List Json}

theorem slot (h : Rests lib policy inputs p j ps d items) : j.slot p.number = some ps.json :=
  get?_of_still h.objects.1 h.stored

theorem row_eq (h : Rests lib policy inputs p j ps d items) : j.row p.number = ps.json := by
  rw [Journal.row,Json.get,show j.packets.get? (toString p.number) = _ from h.slot]
  rfl

theorem entry (h : Rests lib policy inputs p j ps d items) : j.entry p.number = j :=
  entry_of_slot (by rw [h.slot]; rfl)

theorem packet (h : Rests lib policy inputs p j ps d items) : journalPacket j p.number = .ok ps := by
  unfold journalPacket
  rw [if_neg (by simp [h.objects.1,h.objects.2]),h.entry,h.row_eq,h.checked]

/-- Refreshing an owner at rest leaves the journal as it is. -/
theorem again (h : Rests lib policy inputs p j ps d items) :
    refreshPacket lib policy inputs j p = .ok j := by
  have hobserve : p.prs.foldlM (observeFeedback lib p.number) j = .ok j :=
    foldlM_fixed fun u hu => (h.observed u hu).again h.objects h.packet h.row_eq h.stored
      (h.recorded u hu)
  have hrevise : p.prs.foldl (reviseProgress lib p (sources inputs p j) d ps items) j.prs = j.prs := by
    have hall : ∀ urls ⊆ p.prs,
        urls.foldl (reviseProgress lib p (sources inputs p j) d ps items) j.prs = j.prs := by
      intro urls hsub
      induction urls with
      | nil => rfl
      | cons u urls ih =>
        rw [List.foldl_cons,h.revised u (hsub (by simp))]
        exact ih fun v hv => hsub (by simp [hv])
    exact hall p.prs (List.Subset.refl _)
  unfold refreshPacket
  simp only [h.packet,h.entry,hobserve,h.row,h.reported,hrevise,bind,Except.bind,Journal.put,h.stored]

/-- Assignments to other rows and other records leave the owner at rest. -/
theorem kept {numbers urls : List String} (h : Rests lib policy inputs p j ps d items)
    (hpackets : Json.Writes numbers j.packets k.packets) (hprs : Json.Writes urls j.prs k.prs)
    (hn : toString p.number ∉ numbers) (hu : ∀ u ∈ p.prs, u ∉ urls) :
    Rests lib policy inputs p k ps d items := by
  have hpr : ∀ u ∈ p.prs, k.pr u = j.pr u := fun u hup =>
    congrArg (Option.getD · Json.null) (hprs.get? (hu u hup))
  have hsources : sources inputs p k = sources inputs p j := sources_congr inputs hpr
  refine ⟨⟨hpackets.isObject h.objects.1,hprs.isObject h.objects.2⟩,hpackets.still hn h.stored,
    h.checked,fun u hup => ?_,fun u hup => ?_,?_,?_,fun u hup => ?_⟩
  · rw [hpr u hup]
    exact hprs.still (hu u hup) (h.recorded u hup)
  · rw [hpr u hup]
    exact h.observed u hup
  · rw [hsources]
    exact h.row
  · rw [hsources]
    exact h.reported
  · have hrevised := h.revised u hup
    rw [reviseProgress_eq] at hrevised
    rw [hsources,reviseProgress_eq,show k.prs.get u = j.prs.get u from hpr u hup]
    exact hprs.still (hu u hup) hrevised

end Rests

/-- A refreshed row is bound to its delivery as far as it will be. -/
def Unbinding (lib : Library) (r : Json) : Prop :=
  ∀ ps : Row, r = ps.json → bindDelivery ps = ps ∧ bindProgress lib ps = ps

theorem entry_packets_writes (j : Journal) (n : ℕ) :
    Json.Writes [toString n] j.packets (j.entry n).packets := by
  unfold Journal.entry
  split
  · exact Json.Writes.refl.set _ _ (by simp)
  · exact .refl

theorem observeFeedback_packets {n : ℕ} {j j' : Journal} {url : String}
    (h : observeFeedback lib n j url = .ok j') :
    Json.Writes [toString n] j.packets j'.packets ∧ Json.Writes [url] j.prs j'.prs := by
  obtain ⟨pr,-,h⟩ := bind_ok h
  obtain ⟨g,-,h⟩ := bind_ok h
  obtain ⟨ps,-,h⟩ := bind_ok h
  obtain rfl := Except.ok.inj h
  exact ⟨Json.Writes.refl.set _ _ (by simp),Json.Writes.refl.set _ _ (by simp)⟩

/-- A refresh of one owner assigns to its row and its records. -/
theorem refreshPacket_writes {j k : Journal} (h : refreshPacket lib policy inputs j p = .ok k) :
    Json.Writes [toString p.number] j.packets k.packets ∧ Json.Writes p.prs j.prs k.prs := by
  obtain ⟨-,-,h⟩ := bind_ok h
  obtain ⟨i,hi,h⟩ := bind_ok h
  obtain ⟨ps,-,h⟩ := bind_ok h
  obtain ⟨⟨ps',d⟩,-,h⟩ := bind_ok h
  obtain ⟨items,-,h⟩ := bind_ok h
  obtain rfl := Except.ok.inj h
  have hobserved : Json.Writes [toString p.number] j.packets i.packets ∧
      Json.Writes p.prs j.prs i.prs := by
    refine foldlM_keeps (P := fun i : Journal => Json.Writes [toString p.number] j.packets i.packets ∧
      Json.Writes p.prs j.prs i.prs) ⟨entry_packets_writes j _,?_⟩ (fun s t u hu hs ht => ?_) hi
    · rw [Journal.prs_entry]
      exact .refl
    · have hstep := observeFeedback_packets ht
      exact ⟨hs.1.trans hstep.1,hs.2.trans (hstep.2.mono (by simpa using hu))⟩
  exact ⟨hobserved.1.set _ _ (by simp),hobserved.2.trans (foldl_reviseProgress_writes _ _)⟩

theorem sources_apart {j : Journal} (hurl : ∀ u ∈ p.prs, (j.pr u).get "url" = .str u) :
    (sources inputs p j).Apart := by
  have hmem : ∀ u, u ∈ p.prs.insertionSort (· ≤ ·) → u ∈ p.prs :=
    fun u hu => (List.mem_insertionSort _).mp hu
  intro a ha b hb hab
  obtain ⟨u,hu,rfl⟩ := List.mem_map.mp ha
  obtain ⟨v,hv,rfl⟩ := List.mem_map.mp hb
  rw [hurl u (hmem u hu),hurl v (hmem v hv)] at hab
  rw [Json.str.inj hab]

theorem slot_entry {j : Journal} (h : j.Objects) (n : ℕ) : ((j.entry n).slot n).isSome = true := by
  unfold Journal.entry
  split
  · change ((j.packets.set (toString n) (.obj [])).get? (toString n)).isSome = true
    rw [Json.get?_set (assignable_of_isObject h.1),if_pos rfl]
    rfl
  · rename_i hsome
    simp only [h.1,h.2,Bool.true_and,Option.isNone_iff_eq_none] at hsome
    exact Option.isSome_iff_ne_none.mpr hsome

/-- A successful refresh of an owner leaves it at rest, unless its row would still be bound. -/
theorem refreshPacket_rests {j k : Journal} (hnodup : p.prs.Nodup)
    (h : refreshPacket lib policy inputs j p = .ok k) (hrow : Unbinding lib (k.row p.number)) :
    ∃ ps d items, Rests lib policy inputs p k ps d items := by
  obtain ⟨ps₀,hps₀,h⟩ := bind_ok h
  obtain ⟨i,hi,h⟩ := bind_ok h
  obtain ⟨ps,hps,h⟩ := bind_ok h
  obtain ⟨⟨ps',d⟩,hrefresh,h⟩ := bind_ok h
  obtain ⟨items,hitems,h⟩ := bind_ok h
  obtain rfl := Except.ok.inj h
  obtain ⟨hobjects,-,-⟩ := journalPacket_ok hps₀
  have hentry := Journal.objects_entry hobjects p.number
  have hpass := observeFeedback_fold hentry hnodup hi
  obtain ⟨⟨hiobjects,hislot⟩,hobserved⟩ :=
    observeFeedback_observed hentry (slot_entry hobjects p.number) hi
  obtain ⟨-,hirow,hvalid⟩ := journalPacket_ok hps
  have hchecked : checkRow p.number ps.json = .ok ps := by
    unfold journalPacket at hps
    rwa [if_neg (by simp [hiobjects.1,hiobjects.2]),hirow] at hps
  rw [entry_of_slot hislot] at hirow
  obtain ⟨s⟩ := refreshRow_steps hrefresh
  -- the records differ from those observed in the derived fields only
  set prs := p.prs.foldl (reviseProgress lib p (sources inputs p i) d ps' items) i.prs with hprs
  set k : Journal := { i.put p.number ps' with prs := prs } with hk
  have hwrites : ∀ u, Json.Writes ["progress","classification"] (i.pr u) (k.pr u) :=
    fun u => foldl_revised hiobjects.2 u
  have hlike : (sources inputs p i).Like (sources inputs p k) := by
    refine ⟨rfl,rfl,_,i.pr,k.pr,rfl,rfl,fun u _ l h₁ h₂ => ?_⟩
    exact (hwrites u).get? (by simp [h₁,h₂])
  have hput : k.row p.number = ps'.json :=
    (Journal.row_put hiobjects p.number p.number ps').trans (if_pos rfl)
  obtain ⟨hdelivery,hprogress⟩ := hrow ps' hput
  have hrevised : ∀ u ∈ p.prs,
      reviseProgress lib p (sources inputs p i) d ps' items prs u = prs := by
    refine foldl_reviseProgress hiobjects.2 fun u hu => ?_
    obtain ⟨q,-,ho⟩ := hobserved u hu
    exact ho.object
  have hprsObject : prs.isObject = true :=
    (foldl_reviseProgress_writes p.prs i.prs).isObject hiobjects.2
  refine ⟨ps',d,items,⟨?_,hprsObject⟩,Json.set_twice _ _ _ _,s.checked hchecked,fun u hu => ?_,
    fun u hu => ?_,?_,hitems,hrevised⟩
  · exact isObject_set (assignable_of_isObject hiobjects.1) _ _
  · have hfixed := hrevised u hu
    rw [reviseProgress_eq] at hfixed
    exact get_still hprsObject hfixed
  · obtain ⟨q,hq,ho⟩ := hobserved u hu
    obtain rfl := Row.ext_json (hirow.symm.trans hq)
    exact ho.writes s.writes (by decide) (hwrites u)
  · rw [refreshRow_alike hlike]
    refine refreshRow_again (sources_named inputs hpass.seen) ?_ (hvalid.maps _ (by simp)) hdelivery
      hprogress hrefresh
    exact sources_apart fun u hu => (hpass.seen u hu).identity

/-! ## A whole refresh at rest -/

/-- Every owner of the manifest rests after a refresh that leaves no row to be bound. -/
theorem refreshPackets_rest {m : Manifest} (hm : m.Distinct) {j k : Journal}
    (h : m.packets.foldlM (refreshPacket lib policy inputs) j = .ok k) {p : Packet}
    (hp : p ∈ m.packets) (hrow : Unbinding lib (k.row p.number)) :
    ∃ ps d items, Rests lib policy inputs p k ps d items := by
  refine (foldlM_establishes (I := fun _ => True) (R := fun p j => Unbinding lib (j.row p.number) →
    ∃ ps d items, Rests lib policy inputs p j ps d items) trivial (fun s t p hp _ ht => ⟨trivial,
      refreshPacket_rests (hm.urls_nodup hp) ht⟩) ?_ h).2 p hp hrow
  intro s t a ha b hb _ hrests ht hrow
  by_cases hab : b = a
  · subst hab
    exact refreshPacket_rests (hm.urls_nodup hb) ht hrow
  · -- another owner has another row and other records
    have hnumber : b.number ≠ a.number := fun heq => hab (hm.packet_eq hb ha heq)
    obtain ⟨hpackets,hprs⟩ := refreshPacket_writes ht
    have hn : toString b.number ∉ [toString a.number] := by
      simpa using fun heq => hnumber (number_inj heq)
    have hsame : t.row b.number = s.row b.number :=
      congrArg (Option.getD · Json.null) (hpackets.get? hn)
    rw [hsame] at hrow
    obtain ⟨ps,d,items,h⟩ := hrests hrow
    exact ⟨ps,d,items,h.kept hpackets hprs hn fun u hub hua => hab (hm.url_owner hb ha hub hua)⟩

theorem refreshPackets_writes {ps : List Packet} {j k : Journal}
    (h : ps.foldlM (refreshPacket lib policy inputs) j = .ok k) :
    Json.Writes (ps.map fun p => toString p.number) j.packets k.packets ∧
      Json.Writes (ps.flatMap (·.prs)) j.prs k.prs := by
  refine foldlM_keeps (P := fun k : Journal =>
    Json.Writes (ps.map fun p => toString p.number) j.packets k.packets ∧
      Json.Writes (ps.flatMap (·.prs)) j.prs k.prs) ⟨.refl,.refl⟩ (fun s t p hp hs ht => ?_) h
  obtain ⟨hpackets,hprs⟩ := refreshPacket_writes ht
  refine ⟨hs.1.trans (hpackets.mono ?_),hs.2.trans (hprs.mono fun u hu => ?_)⟩
  · simpa using ⟨p,hp,rfl⟩
  · exact List.mem_flatMap.mpr ⟨p,hp,hu⟩

theorem inScope_writes {m : Manifest} {j k : Journal} (h : inScope m j = true)
    (hpackets : Json.Writes (m.packets.map fun p => toString p.number) j.packets k.packets)
    (hprs : Json.Writes (m.packets.flatMap (·.prs)) j.prs k.prs) : inScope m k = true := by
  unfold inScope at h ⊢
  simp only [Bool.and_eq_true,List.all_eq_true,List.any_eq_true,decide_eq_true_eq] at h ⊢
  obtain ⟨⟨⟨hj,hj'⟩,hrecords⟩,hrows⟩ := h
  refine ⟨⟨⟨hprs.isObject hj,hpackets.isObject hj'⟩,fun f hf => ?_⟩,fun f hf => ?_⟩
  · rcases hprs.fields f hf with hnew | hold
    · exact List.mem_flatMap.mp hnew
    · obtain ⟨g,hg,heq⟩ := List.mem_map.mp hold
      rw [← heq]
      exact hrecords g hg
  · rcases hpackets.fields f hf with hnew | hold
    · obtain ⟨p,hp,heq⟩ := List.mem_map.mp hnew
      exact ⟨p,hp,heq⟩
    · obtain ⟨g,hg,heq⟩ := List.mem_map.mp hold
      rw [← heq]
      exact hrows g hg

theorem Rests.congr {j k : Journal} {ps : Row} {d : String} {items : List Json}
    (h : Rests lib policy inputs p j ps d items) (hpackets : k.packets = j.packets)
    (hprs : k.prs = j.prs) : Rests lib policy inputs p k ps d items :=
  @Rests.kept _ _ _ _ _ _ _ _ _ [] [] h (hpackets ▸ .refl) (hprs ▸ .refl) (by simp) (by simp)

/-- Refreshing once more, with nothing else in between, changes nothing. -/
theorem refresh_again {m : Manifest} {j k : Journal} (h : refresh lib m j policy inputs = .ok k)
    (hrows : ∀ p ∈ m.packets, Unbinding lib (k.row p.number)) :
    refresh lib m k policy inputs = .ok k := by
  have hown := (refresh_ok h).own
  obtain ⟨⟨⟩,hentry,h⟩ := bind_ok h
  obtain ⟨i,hi,h⟩ := bind_ok h
  obtain ⟨coverage,hcoverage,h⟩ := bind_ok h
  obtain rfl := Except.ok.inj h
  obtain ⟨hpackets,hprs⟩ := refreshPackets_writes hi
  have hscope : inScope m { i with retained := some (.ok m),coverage := some coverage } = true := by
    obtain ⟨-,-,hentry⟩ := bind_ok hentry
    obtain ⟨⟨⟩,hscope,-⟩ := bind_ok hentry
    exact inScope_writes (require_ok hscope) hpackets hprs
  have hentryted : admitManifest m { i with retained := some (.ok m),coverage := some coverage } =
      .ok () := by
    have hvalid : m.validate (some m) = .ok () := validate_iff.mpr (.refl hown)
    unfold admitManifest validateRetained
    simp only [hvalid,hscope,require,if_true,bind,Except.bind]
  have hfixed : m.packets.foldlM (refreshPacket lib policy inputs)
      { i with retained := some (.ok m),coverage := some coverage } =
      .ok { i with retained := some (.ok m),coverage := some coverage } := by
    refine foldlM_fixed fun p hp => ?_
    obtain ⟨ps,d,items,hrests⟩ := refreshPackets_rest (validateOwn_ok hown) hi hp (hrows p hp)
    exact (hrests.congr (k := { i with retained := some (.ok m),coverage := some coverage })
      rfl rfl).again
  unfold refresh
  simp only [hentryted,hfixed,hcoverage,bind,Except.bind]

/-! ## Versions and what they were computed from -/

/-- The progress of a delivered row would be bound to the delivery. -/
def bindsProgress (lib : Library) (r : Json) : Bool :=
  (r.get "deliveredProgressVersion").isNull && (r.get "deliveredVersion").isString &&
    r.get "deliveredVersion" = r.get "version" && present lib (r.get "progressVersion")

theorem bindsProgress_congr {r r' : Json} (h : ∀ k ∈ ["deliveredProgressVersion","deliveredVersion",
    "version","progressVersion"], r'.get k = r.get k) :
    bindsProgress lib r' = bindsProgress lib r := by
  rw [Bool.eq_iff_iff]
  simp only [bindsProgress,Bool.and_eq_true,decide_eq_true_eq]
  rw [h "deliveredProgressVersion" (by simp),h "deliveredVersion" (by simp),h "version" (by simp),
    h "progressVersion" (by simp)]

theorem bindProgress_of_not {ps : Row} (h : bindsProgress lib ps.json = false) :
    bindProgress lib ps = ps := by
  unfold bindProgress
  exact if_neg (by rw [Bool.not_eq_true]; exact h)

theorem RowSteps.progress_kept {src : Sources} {ps ps' : Row} {d : String}
    (s : RowSteps lib policy inputs p src ps ps' d) (h : bindsProgress lib ps.json = false) :
    ps'.get "deliveredProgressVersion" = ps.get "deliveredProgressVersion" := by
  have hbound : Row.Keeps ("deliveredObservationVersion" :: "openPRs" :: evidenceKeys) ps
      (bindDelivery s.observed) :=
    (s.writes_observed.keeps.mono (by simp)).trans ((bindDelivery_writes _).keeps.mono (by simp))
  have hnot : bindsProgress lib (bindDelivery s.observed).json = false := by
    rw [← h]
    refine bindsProgress_congr fun k hk => hbound.get ?_
    simp only [List.mem_cons,List.not_mem_nil,or_false] at hk
    rcases hk with rfl | rfl | rfl | rfl <;> decide
  have hdelivered : s.delivered.get "deliveredProgressVersion" =
      ps.get "deliveredProgressVersion" := by
    rw [s.delivery,bindProgress_of_not hnot,(keepWaiting_writes _).keeps.get (by decide)]
    exact hbound.get (by decide)
  rw [← hdelivered,s.after_stamped.get (by decide),s.writes_stamped.keeps.get (by decide),
    s.writes_reported.keeps.get (by decide)]

theorem refreshPacket_progress {j k : Journal} (hnodup : p.prs.Nodup)
    (h : refreshPacket lib policy inputs j p = .ok k)
    (hnot : bindsProgress lib (j.row p.number) = false) :
    (k.row p.number).get "deliveredProgressVersion" =
      (j.row p.number).get "deliveredProgressVersion" := by
  obtain ⟨ps₀,hps₀,h⟩ := bind_ok h
  obtain ⟨i,hi,h⟩ := bind_ok h
  obtain ⟨ps,hps,h⟩ := bind_ok h
  obtain ⟨⟨ps',d⟩,hrefresh,h⟩ := bind_ok h
  obtain ⟨items,-,h⟩ := bind_ok h
  obtain rfl := Except.ok.inj h
  obtain ⟨hobjects,-,-⟩ := journalPacket_ok hps₀
  have hpass := observeFeedback_fold (Journal.objects_entry hobjects _) hnodup hi
  obtain ⟨hiobjects,-,-⟩ := journalPacket_ok hps
  obtain ⟨s⟩ := refreshRow_steps hrefresh
  have hread : ∀ k ≠ "feedbackObservations", ps.get k = (j.row p.number).get k := by
    intro k hk
    rw [journalPacket_get hps k,← Journal.entry_get j p.number]
    exact congrArg (Option.getD · Json.null) (hpass.keeps k hk)
  have hput : ∀ prs, Journal.row { i.put p.number ps' with prs := prs } p.number = ps'.json :=
    fun _ => (Journal.row_put hiobjects p.number p.number ps').trans (if_pos rfl)
  rw [hput,Row.json_get,← hread _ (by decide)]
  refine s.progress_kept ?_
  rw [← hnot]
  refine bindsProgress_congr fun k hk => hread k ?_
  rintro rfl
  simp at hk

theorem refresh_progress {m : Manifest} {j k : Journal} (h : refresh lib m j policy inputs = .ok k)
    (hp : p ∈ m.packets) (hnot : bindsProgress lib (j.row p.number) = false) :
    (k.row p.number).get "deliveredProgressVersion" =
      (j.row p.number).get "deliveredProgressVersion" := by
  have hm := (refresh_ok h).distinct
  obtain ⟨-,-,h⟩ := bind_ok h
  obtain ⟨i,hi,h⟩ := bind_ok h
  obtain ⟨coverage,-,h⟩ := bind_ok h
  obtain rfl := Except.ok.inj h
  obtain ⟨u,v,hv,hrow,hrow',-,-⟩ := refreshPackets_owner hm hi hp
  change (i.row p.number).get _ = _
  rw [← hrow] at hnot ⊢
  rw [hrow']
  exact refreshPacket_progress (hm.urls_nodup hp) hv hnot

/-- A version, with the progress and the observation it was computed from; the texts that are
digested are in `events`. -/
structure Traced (lib : Library) (events : Set String) (version progress observation : Json) :
    Prop where
  shape : progress = .null ∨ progress.isString = true
  source : version = .null ∨ observation.isString = true ∧ ∃ inputs : Json,
    inputs.isObject = true ∧ String.ofList (canonical lib inputs) ∈ events ∧
      version = .str (digest lib inputs) ∧ inputs.get? "progressVersion" = some progress

/-- The row's versions: its own, the one being delivered and the one last delivered. -/
structure Traces (lib : Library) (events : Set String) (r : Json) : Prop where
  current : Traced lib events (r.get "version") (r.get "progressVersion")
    (r.get "observationVersion")
  pending : Traced lib events ((r.get "pending").get "version")
    ((r.get "pending").get "progressVersion") ((r.get "pending").get "observationVersion")
  delivered : Traced lib events (r.get "deliveredVersion") (r.get "deliveredProgressVersion")
    (r.get "deliveredObservationVersion")

section Traces
variable {events : Set String}

theorem canonical_string_null {v : Json} (hv : v = .null ∨ v.isString = true)
    (h : canonical lib v = canonical lib .null) : v = .null := by
  rcases hv with hv | hv
  · exact hv
  · cases v with
    | str s => simp [canonical,string_eq,render] at h
    | _ => cases hv

/-- One event version has one progress, as to whether there is any. -/
theorem Traced.progress_null (hlib : lib.Spells) (hsha : Set.InjOn lib.sha256 events)
    {v w w' o o' : Json} (h : Traced lib events v w o) (h' : Traced lib events v w' o')
    (hv : v ≠ .null) (hnull : w' = .null) : w = .null := by
  obtain ⟨-,inputs,hobject,hmem,hversion,hprogress⟩ := h.source.resolve_left hv
  obtain ⟨-,inputs',hobject',hmem',hversion',hprogress'⟩ := h'.source.resolve_left hv
  have htext : canonical lib inputs = canonical lib inputs' :=
    String.ofList_injective (hsha hmem hmem' (Json.str.inj (hversion.symm.trans hversion')))
  obtain ⟨fs,rfl⟩ : ∃ fs, inputs = .obj fs := by cases inputs <;> simp_all [isObject]
  obtain ⟨gs,rfl⟩ : ∃ gs, inputs' = .obj gs := by cases inputs' <;> simp_all [isObject]
  have hkey := canonical_get? hlib htext "progressVersion"
  rw [hprogress,hprogress',hnull] at hkey
  exact canonical_string_null h.shape (Option.some.inj hkey)

/-- A traced row has its delivery bound. -/
theorem Traces.unbinding (hlib : lib.Spells) (hsha : Set.InjOn lib.sha256 events) {r : Json}
    (h : Traces lib events r) : bindsProgress lib r = false ∧ Unbinding lib r := by
  have hprogress : bindsProgress lib r = false := by
    by_contra hbinds
    simp only [bindsProgress,Bool.not_eq_false,Bool.and_eq_true,decide_eq_true_eq] at hbinds
    obtain ⟨⟨⟨hnull,hstring⟩,hsame⟩,hpresent⟩ := hbinds
    have hversion : r.get "deliveredVersion" ≠ .null := by
      intro heq
      rw [heq] at hstring
      cases hstring
    have hdelivered := h.delivered
    rw [hsame] at hdelivered
    rw [hsame] at hversion
    have hnone := h.current.progress_null hlib hsha hdelivered hversion (isNull_iff.mp hnull)
    rw [hnone] at hpresent
    cases hpresent
  refine ⟨hprogress,?_⟩
  rintro ps rfl
  refine ⟨?_,bindProgress_of_not hprogress⟩
  unfold bindDelivery
  refine if_neg fun hbinds => ?_
  simp only [Bool.and_eq_true,decide_eq_true_eq] at hbinds
  obtain ⟨⟨⟨hnull,hstring⟩,-⟩,-⟩ := hbinds
  rcases h.delivered.source with hversion | ⟨hobservation,-⟩
  · rw [Row.json_get] at hversion
    rw [hversion] at hstring
    cases hstring
  · rw [Row.json_get,isNull_iff.mp hnull] at hobservation
    cases hobservation

theorem Traces.of_null : Traces lib events .null :=
  ⟨⟨.inl rfl,.inl rfl⟩,⟨.inl rfl,.inl rfl⟩,⟨.inl rfl,.inl rfl⟩⟩

/-- The keys that hold versions and what they were computed from. -/
def traceKeys : List String :=
  ["version","progressVersion","observationVersion","pending","deliveredVersion",
    "deliveredProgressVersion","deliveredObservationVersion"]

theorem Traces.congr {r r' : Json} (h : Traces lib events r) (hkeys : ∀ k ∈ traceKeys,
    r'.get k = r.get k) : Traces lib events r' := by
  obtain ⟨hcurrent,hpending,hdelivered⟩ := h
  refine ⟨?_,?_,?_⟩
  · rw [hkeys "version" (by decide),hkeys "progressVersion" (by decide),
      hkeys "observationVersion" (by decide)]
    exact hcurrent
  · rw [hkeys "pending" (by decide)]
    exact hpending
  · rw [hkeys "deliveredVersion" (by decide),hkeys "deliveredProgressVersion" (by decide),
      hkeys "deliveredObservationVersion" (by decide)]
    exact hdelivered

/-- The texts that are digested into event versions. -/
def eventText (lib : Library) (r : Json) : String :=
  String.ofList (canonical lib (eventInputs lib (r.get "versionInputs") ⟨r.asObject.getD []⟩))

theorem eventInputs_progress {v : Json} (hv : v.isObject = true) (ps : Row) :
    (eventInputs lib v ps).isObject = true ∧
      (eventInputs lib v ps).get? "progressVersion" = some (ps.get "progressVersion") := by
  have hwrites : Json.Writes ["recoveryVersion","recheckVersion"]
      (v.set "progressVersion" (ps.get "progressVersion")) (eventInputs lib v ps) := by
    unfold eventInputs
    simp only [List.foldl_cons,List.foldl_nil]
    split
    · split
      · exact (Json.Writes.refl.set _ _ (by simp)).set _ _ (by simp)
      · exact Json.Writes.refl.set _ _ (by simp)
    · split
      · exact Json.Writes.refl.set _ _ (by simp)
      · exact .refl
  refine ⟨hwrites.isObject (isObject_set (assignable_of_isObject hv) _ _),?_⟩
  rw [hwrites.get? (by decide),Json.get?_set (assignable_of_isObject hv),if_pos rfl]

theorem row_get_fields {r : Json} (hr : r.isObject = true) (k : String) :
    Row.get ⟨r.asObject.getD []⟩ k = r.get k := by
  cases r <;> first | rfl | cases hr

theorem observationInputs_isObject (policy : Policy) (p : Packet) (src : Sources) (g : ℕ) :
    (observationInputs lib policy p src g).isObject = true :=
  numbered_isObject (observedInputs_isObject policy p src) "dependencyGeneration" g

/-- A refresh leaves the versions of its owner traced. -/
theorem PacketRefreshed.traces {j k : Journal} (h : PacketRefreshed lib policy inputs p j k)
    (hj : Traces lib events (j.row p.number)) (hbinds : bindsProgress lib (j.row p.number) = false)
    (hprogress : (k.row p.number).get "deliveredProgressVersion" =
      (j.row p.number).get "deliveredProgressVersion")
    (hevent : eventText lib (k.row p.number) ∈ events) : Traces lib events (k.row p.number) := by
  have hkept : ∀ key ∈ ["pending","deliveredVersion"],
      (k.row p.number).get key = (j.row p.number).get key := by
    intro key hkey
    refine congrArg (Option.getD · Json.null) (h.keeps key ?_)
    simp only [List.mem_cons,List.not_mem_nil,or_false] at hkey
    rcases hkey with rfl | rfl <;> decide
  refine ⟨⟨?_,.inr ⟨?_,_,?_,hevent,h.stamped,?_⟩⟩,?_,?_⟩
  · rcases h.reported "progressVersion" (by simp) with hsame | ⟨report,-,hnew⟩
    · rw [hsame]
      exact hj.current.shape
    · rw [hnew]
      exact .inr rfl
  · rw [h.digested]
    rfl
  · exact (eventInputs_progress (h.inputs_version ▸ observationInputs_isObject ..) _).1
  · rw [(eventInputs_progress (h.inputs_version ▸ observationInputs_isObject ..) _).2,
      row_get_fields h.object]
  · rw [hkept "pending" (by simp)]
    exact hj.pending
  · -- the observation stays with the delivered event
    rw [hkept "deliveredVersion" (by simp),hprogress]
    refine ⟨hj.delivered.shape,?_⟩
    rcases hj.delivered.source with hversion | ⟨hobservation,hsource⟩
    · exact .inl hversion
    · refine .inr ⟨?_,hsource⟩
      rw [h.bound fun hnull => by rw [hnull] at hobservation; cases hobservation]
      exact hobservation

/-- A fresh request carries the versions of its row. -/
theorem prepare_pending {j : Journal} {policy : Policy} {text at_ : String} {body : Json}
    (h : (prepare lib j p policy text at_).1 = .ok body)
    (hfresh : ((j.row p.number).get "pending").isNull = true) :
    ∀ k ∈ ["version","progressVersion","observationVersion"],
      ((((prepare lib j p policy text at_).2.row p.number).get "pending").get k =
        (j.row p.number).get k) := by
  unfold prepare at h ⊢
  split at h
  · cases h
  · rename_i ps hps
    have hget := journalPacket_get hps
    obtain ⟨hobjects,-,-⟩ := journalPacket_ok hps
    split at h
    · cases h
    · rename_i ps' body' hrow
      unfold prepareRow at hrow
      rw [if_neg (by simp [hget,hfresh])] at hrow
      obtain ⟨⟨⟩,-,hrow⟩ := bind_ok hrow
      obtain ⟨⟨⟩,-,hrow⟩ := bind_ok hrow
      obtain ⟨g,-,hrow⟩ := bind_ok hrow
      obtain ⟨rfl,-⟩ := Prod.mk.inj (Except.ok.inj hrow)
      simp only [Journal.row_put hobjects,if_pos,Row.json_get,enqueue_get,← hget]
      intro k hk
      simp only [List.mem_cons,List.not_mem_nil,or_false] at hk
      rcases hk with rfl | rfl | rfl <;> exact object_get (by simp) (by simp)

/-- A request that is delivered leaves its versions in the row. -/
theorem acknowledge_versions {j : Journal} {n : ℕ} {id at_ : String}
    (h : (acknowledge j n id at_).1 = .ok ()) :
    let r := (acknowledge j n id at_).2.row n
    r.get "deliveredVersion" = ((j.row n).get "pending").get "version" ∧
      r.get "deliveredProgressVersion" = ((j.row n).get "pending").get "progressVersion" ∧
      r.get "deliveredObservationVersion" = ((j.row n).get "pending").get "observationVersion" ∧
      r.get "pending" = .null := by
  unfold acknowledge at h ⊢
  split at h
  · cases h
  · rename_i ps hps
    have hget := journalPacket_get hps
    obtain ⟨hobjects,-,-⟩ := journalPacket_ok hps
    split at h
    · cases h
    · rename_i hid
      simp only [if_neg hid,Journal.row_put hobjects,if_pos,Row.json_get]
      exact ⟨by simp [deliver,hget],by simp [deliver,hget],by simp [deliver,hget],by simp [deliver]⟩

end Traces

/-! ## Runs -/

namespace Run

variable (run : Run lib)

/-- The texts that the refreshes of the run digest into event versions. -/
def events : Set String :=
  {text | ∃ t n m policy inputs p, run.Refreshes t n m policy inputs p ∧
    text = eventText lib (run.row (t+1) n)}

variable {run}

theorem traces_prepare {events : Set String} {t n : ℕ} {p : Packet} {policy : Policy}
    {text at_ : String} (hop : run.op t = .prepare p policy text at_)
    (h : Traces lib events (run.row t n)) : Traces lib events (run.row (t+1) n) := by
  have hrow : run.row (t+1) n =
      (Orchestration.prepare lib (run.state t) p policy text at_).2.row n := by
    rw [row_succ,hop]
    rfl
  by_cases hfresh : ∃ body, p.number = n ∧ (Orchestration.prepare lib (run.state t) p policy text
      at_).1 = .ok body ∧ ((run.row t n).get "pending").isNull = true
  · obtain ⟨body,rfl,hok,hnull⟩ := hfresh
    have hpending := prepare_pending hok hnull
    rw [← hrow] at hpending
    have hkept : ∀ k ∉ ["admissionGeneration","pending"],
        (run.row (t+1) p.number).get k = (run.row t p.number).get k := by
      refine fun k hk => run.row_keeps ?_
      simpa [hop,Operation.keys] using hk
    refine ⟨?_,?_,?_⟩
    · rw [hkept _ (by decide),hkept _ (by decide),hkept _ (by decide)]
      exact h.current
    · rw [hpending _ (by simp),hpending _ (by simp),hpending _ (by simp)]
      exact h.current
    · rw [hkept _ (by decide),hkept _ (by decide),hkept _ (by decide)]
      exact h.delivered
  · refine h.congr fun k _ => ?_
    rw [hrow]
    refine prepare_get (fun body hn hok => ?_) k
    by_contra hnull
    exact hfresh ⟨body,hn,hok,by simpa [row] using hnull⟩

theorem traces_acknowledge {events : Set String} {t m n : ℕ} {id at_ : String}
    (hop : run.op t = .acknowledge m id at_) (h : Traces lib events (run.row t n)) :
    Traces lib events (run.row (t+1) n) := by
  have hrow : run.row (t+1) n = (Orchestration.acknowledge (run.state t) m id at_).2.row n := by
    rw [row_succ,hop]
    rfl
  by_cases hok : m = n ∧ (Orchestration.acknowledge (run.state t) m id at_).1 = .ok ()
  · obtain ⟨rfl,hok⟩ := hok
    obtain ⟨hversion,hprogress,hobservation,hnull⟩ := acknowledge_versions hok
    rw [← hrow] at hversion hprogress hobservation hnull
    have hkept : ∀ k ∈ ["version","progressVersion","observationVersion"],
        (run.row (t+1) m).get k = (run.row t m).get k := by
      intro k hk
      refine run.row_keeps ?_
      rw [hop]
      simp only [Operation.keys,if_pos]
      revert k
      decide
    refine ⟨?_,?_,?_⟩
    · rw [hkept _ (by simp),hkept _ (by simp),hkept _ (by simp)]
      exact h.current
    · rw [hnull]
      exact ⟨.inl rfl,.inl rfl⟩
    · rw [hversion,hprogress,hobservation]
      exact h.pending
  · refine h.congr fun k _ => ?_
    rw [hrow]
    exact acknowledge_get (fun hmn hacc => hok ⟨hmn,hacc⟩) k

theorem traces_step (hlib : lib.Spells) (hsha : Set.InjOn lib.sha256 run.events) {t n : ℕ}
    (h : Traces lib run.events (run.row t n)) : Traces lib run.events (run.row (t+1) n) := by
  cases hop : run.op t with
  | refresh m policy inputs =>
    rcases run.refreshes_or_same n hop with ⟨p,hr⟩ | hsame
    · have hrow := hr.row
      obtain ⟨j,hj⟩ := hr.ok
      have hstate : run.state (t+1) = j := by
        rw [run.step,hop]
        simp [Operation.apply,hj]
      obtain ⟨hbinds,-⟩ := h.unbinding hlib hsha
      rw [← hr.number] at h hbinds ⊢
      refine hr.packet.traces h hbinds ?_ ⟨t,n,m,policy,inputs,p,hr,?_⟩
      · rw [hstate]
        exact refresh_progress hj hr.owner hbinds
      · rw [hr.row]
    · rw [hsame]
      exact h
  | prepare p policy text at_ => exact traces_prepare hop h
  | acknowledge m id at_ => exact traces_acknowledge hop h
  | observe prs =>
    refine h.congr fun k _ => run.row_keeps ?_
    rw [hop]
    simp [Operation.keys]
  | recheck m policy now =>
    refine h.congr fun k hk => run.row_keeps ?_
    rw [hop]
    revert k
    simp only [Operation.keys]
    split <;> decide
  | recover m idle now =>
    refine h.congr fun k hk => run.row_keeps ?_
    rw [hop]
    revert k
    simp only [Operation.keys]
    split <;> decide

/-- Every version a run from the empty journal holds is traced. -/
theorem traces (hlib : lib.Spells) (hsha : Set.InjOn lib.sha256 run.events)
    (hempty : run.state 0 = emptyJournal) (t n : ℕ) : Traces lib run.events (run.row t n) := by
  induction t with
  | zero =>
    rw [row,hempty]
    exact .of_null
  | succ t ih => exact traces_step hlib hsha ih

end Run

/-! ## The caller's state -/

/-- `refresh_in_place`: its result and the state it leaves.  What it leaves half done when it
fails is `spoiled`. -/
def refreshInPlace (lib : Library) (spoiled : Journal) (m : Manifest) (policy : Policy)
    (inputs : Inputs) (j : Journal) : Except String Unit × Journal :=
  match refresh lib m j policy inputs with
  | .ok k => (.ok (),k)
  | .error e => (.error e,spoiled)

/-- The state takes the refreshed copy only when the refresh has succeeded. -/
def refreshState (lib : Library) (spoiled : Journal) (m : Manifest) (policy : Policy)
    (inputs : Inputs) (j : Journal) : Except String Unit × Journal :=
  match refreshInPlace lib spoiled m policy inputs j with
  | (.ok (),candidate) => (.ok (),candidate)
  | (.error e,_) => (.error e,j)

theorem refreshState_error {spoiled : Journal} {m : Manifest} {j : Journal} {e : String}
    (h : (refreshState lib spoiled m policy inputs j).1 = .error e) :
    (refreshState lib spoiled m policy inputs j).2 = j := by
  unfold refreshState refreshInPlace at h ⊢
  cases hrefresh : refresh lib m j policy inputs with
  | error e => simp
  | ok k => simp [hrefresh] at h

theorem refreshState_ok {spoiled : Journal} {m : Manifest} {j k : Journal} :
    refreshState lib spoiled m policy inputs j = (.ok (),k) ↔
      refresh lib m j policy inputs = .ok k := by
  unfold refreshState refreshInPlace
  cases hrefresh : refresh lib m j policy inputs with
  | error e => simp
  | ok k' => simp

/-- A failed refresh leaves the state as it was.  In a run from the empty journal whose event
versions do not collide, a refresh that has succeeded succeeds again at once and changes nothing. -/
theorem refresh_idempotent (hlib : lib.Spells) (run : Run lib) (hempty : run.state 0 = emptyJournal)
    (hsha : Set.InjOn lib.sha256 run.events) (spoiled : Journal) :
    (∀ m policy inputs j e, (refreshState lib spoiled m policy inputs j).1 = .error e →
      (refreshState lib spoiled m policy inputs j).2 = j) ∧
    ∀ t m policy inputs k, run.op t = .refresh m policy inputs →
      refreshState lib spoiled m policy inputs (run.state t) = (.ok (),k) →
        run.state (t+1) = k ∧ refreshState lib spoiled m policy inputs k = (.ok (),k) := by
  refine ⟨fun m policy inputs j e h => refreshState_error h,fun t m policy inputs k hop h => ?_⟩
  have hrefresh := refreshState_ok.mp h
  have hstate : run.state (t+1) = k := by
    rw [run.step,hop]
    simp [Operation.apply,hrefresh]
  refine ⟨hstate,refreshState_ok.mpr (refresh_again hrefresh fun p _ => ?_)⟩
  rw [← hstate]
  exact ((Run.traces hlib hsha hempty (t+1) p.number).unbinding hlib hsha).2

/-! A new campaign whose owner is refreshed again once its first request is delivered. -/

def settledLibrary : Library := tableLibrary requestTable

def settledCampaign : ℕ → Operation
  | 0 => .refresh solo soloPolicy ⟨[],[],[]⟩
  | 1 => .prepare soloOwner soloPolicy "Continue" "now"
  | 2 => .acknowledge 1 "msg_9f482a0b244a69e711d782cb00101cf0" "now"
  | _ => .refresh solo soloPolicy ⟨[],[],[]⟩

def settledRun : Run settledLibrary := .start settledLibrary emptyJournal settledCampaign

theorem settledRun_refreshed : ((settledRun.row 4 1).get "deliveredVersion").isString = true ∧
    refreshState settledLibrary emptyJournal solo soloPolicy ⟨[],[],[]⟩ (settledRun.state 4) =
      (.ok (),settledRun.state 4) := by
  have hinjective : Function.Injective settledLibrary.sha256 :=
    tableHash_injective (by decide +kernel) (by decide +kernel)
  have hok : (refresh settledLibrary solo (settledRun.state 3) soloPolicy ⟨[],[],[]⟩).isOk = true := by
    decide +kernel
  obtain ⟨k,hk⟩ := Run.exists_of_isOk hok
  have h := (refresh_idempotent (tableLibrary_spells _) settledRun rfl hinjective.injOn
    emptyJournal).2 3 solo soloPolicy ⟨[],[],[]⟩ k rfl (refreshState_ok.mpr hk)
  rw [h.1]
  exact ⟨by decide +kernel,h.2⟩

end Orchestration
end CanixToolbelt
