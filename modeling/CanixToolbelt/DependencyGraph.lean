import CanixToolbelt.Fallible
import CanixToolbelt.Json
import CanixToolbelt.ShortestPaths
import Std.Data.ExtTreeMap

/-! Cargo's resolved dependency graph: what is accepted of it, the breadth-first paths from the
workspace, and the parents of a package. -/
namespace CanixToolbelt
namespace DependencyGraph

open Fallible ShortestPaths

structure PackageIdentity where
  name : String
  version : String
  source : Option String
  deriving DecidableEq

structure Package where
  id : String
  identity : PackageIdentity

structure Edge where
  pkg : String
  depKinds : List Json

structure Node where
  id : String
  features : List String
  deps : List Edge

structure Document where
  packages : List Package
  workspaceMembers : List String
  resolve : Option (List Node)

abbrev Map (α : Type) := Std.ExtTreeMap String α

variable {α : Type}

/-- A map of the values by their keys; of two with one key the last stays. -/
def collect (key : α → String) (xs : List α) : Map α :=
  xs.foldl (fun t x => t.insert (key x) x) ∅

/-- `values()`, in the order of the keys. -/
def values (t : Map α) : List α := t.toList.map (·.2)

/-- The accepted graph: nodes are kept under their identifiers, every edge leads to a package
that is resolved, and so do the roots. -/
structure Metadata where
  packages : Map Package
  nodes : Map Node
  roots : List String
  packageKey : ∀ (id : String) (p : Package), packages[id]? = some p → p.id = id
  nodeKey : ∀ (id : String) (n : Node), nodes[id]? = some n → n.id = id
  resolved : ∀ n ∈ values nodes, n.id ∈ packages ∧ ∀ e ∈ n.deps, e.pkg ∈ packages ∧ e.pkg ∈ nodes
  rooted : ∀ id ∈ roots, id ∈ nodes

theorem collect_keyed (key : α → String) (xs : List α) :
    ∀ k x, (collect key xs)[k]? = some x → x ∈ xs ∧ key x = k := by
  have hfold : ∀ (ys : List α) (t : Map α), (∀ y ∈ ys, y ∈ xs) →
      (∀ k x, t[k]? = some x → x ∈ xs ∧ key x = k) →
      ∀ k x, (ys.foldl (fun t x => t.insert (key x) x) t)[k]? = some x → x ∈ xs ∧ key x = k := by
    intro ys
    induction ys with
    | nil => exact fun t _ ht => ht
    | cons y ys ih =>
      intro t hys ht
      refine ih _ (fun z hz => hys z (by simp [hz])) fun k x hx => ?_
      rw [Std.ExtTreeMap.getElem?_insert] at hx
      split at hx
      · rename_i heq
        obtain rfl := Option.some.inj hx
        exact ⟨hys y (by simp),Std.LawfulEqCmp.eq_of_compare heq⟩
      · exact ht k x hx
  exact hfold xs ∅ (fun _ h => h) (by simp)

/-- `Metadata::parse` after the text was read as a document. -/
def Metadata.ofDocument (document : Document) : Except String Metadata :=
  match document.resolve with
  | none => .error "Cargo metadata has no resolve graph"
  | some nodeList =>
    let packages := collect (·.id) document.packages
    let nodes := collect (·.id) nodeList
    if packages.size ≠ document.packages.length ∨ nodes.size ≠ nodeList.length ∨
        document.workspaceMembers = [] then
      .error "metadata contains duplicate IDs or no workspace roots"
    else if hresolved : ∀ n ∈ values nodes,
        n.id ∈ packages ∧ ∀ e ∈ n.deps, e.pkg ∈ packages ∧ e.pkg ∈ nodes then
      if hrooted : ∀ id ∈ document.workspaceMembers, id ∈ nodes then
        .ok {
          packages := packages
          nodes := nodes
          roots := document.workspaceMembers
          packageKey := fun k p hp => (collect_keyed _ _ k p hp).2
          nodeKey := fun k n hn => (collect_keyed _ _ k n hn).2
          resolved := hresolved
          rooted := hrooted }
      else .error "workspace root is not resolved"
    else .error "resolve graph references an unknown package/node"

/-- `Metadata::parse`; `decode` reads the text as a document. -/
def Metadata.parse (decode : List UInt8 → Except String Document) (bytes : List UInt8) :
    Except String Metadata := do
  let document ← decode bytes
  Metadata.ofDocument document

/-! ## Paths -/

/-- An index that is not in its map, or a loop that is still going. -/
inductive Fault where
  | lookup
  | running
  deriving DecidableEq

def lookup (t : Map α) (k : String) : Except Fault α :=
  match t[k]? with
  | some x => .ok x
  | none => .error .lookup

structure Search where
  queue : List String
  paths : Map (List String)

def discover (id : String) (s : Search) (child : String) : Except Fault Search :=
  if child ∈ s.paths then .ok s
  else do
    let path ← lookup s.paths id
    .ok ⟨s.queue ++ [child],s.paths.insert child (path ++ [child])⟩

namespace Metadata
variable (g : Metadata)

/-- At most `n` turns of the loop. -/
def search : ℕ → Search → Except Fault (Map (List String))
  | _, ⟨[],paths⟩ => .ok paths
  | 0, _ => .error .running
  | n+1, ⟨id::queue,paths⟩ => do
    let node ← lookup g.nodes id
    let s ← (node.deps.map (·.pkg)).foldlM (discover id) ⟨queue,paths⟩
    search n s

def start : Search :=
  ⟨g.roots,g.roots.foldl (fun t id => t.insert id [id]) ∅⟩

/-- The loop takes each root and each other node once. -/
def paths : Except Fault (Map (List String)) := g.search (g.roots.length + g.nodes.size) g.start

/-! ## Parents -/

end Metadata

structure Parent where
  parent : String
  version : String
  features : List String
  dependencyKinds : List Json
  path : List String

/-- The identifiers of the packages with the name and, when given, the version. -/
def select (packages : List Package) (name : String) (version : Option String) : List String :=
  (packages.filter fun p =>
    p.identity.name = name && version.all (p.identity.version = ·)).map (·.id)

/-- The edges in the order of their nodes. -/
def links (nodes : List Node) : List (Node × Edge) := nodes.flatMap fun n => n.deps.map (n,·)

def spell (identity : PackageIdentity) : String := identity.name ++ "@" ++ identity.version

namespace Metadata
variable (g : Metadata)

def targets (name : String) (version : Option String) : List String :=
  select (values g.packages) name version

def describe (paths : Map (List String)) (node : Node) (edge : Edge) : Except Fault Parent := do
  let parent ← lookup g.packages node.id
  let path ← ((paths[node.id]?).getD []).mapM fun id => do
    let package ← lookup g.packages id
    .ok (spell package.identity)
  .ok ⟨parent.identity.name,parent.identity.version,node.features,edge.depKinds,path⟩

def parents (name : String) (version : Option String) : Except Fault (List Parent) := do
  let paths ← g.paths
  ((links (values g.nodes)).filter fun l => l.2.pkg ∈ g.targets name version).mapM fun l =>
    g.describe paths l.1 l.2

end Metadata

/-! ## The search finds the shortest paths -/

theorem lookup_ok {t : Map α} {k : String} {x : α} (h : t[k]? = some x) : lookup t k = .ok x := by
  simp only [lookup,h]

/-- What expanding one node finds. -/
theorem discover_fold {id : String} {path : List String} (cs : List String) {s : Search}
    (h : s.paths[id]? = some path) :
    ∃ new t, cs.foldlM (discover id) s = .ok ⟨s.queue ++ new,t⟩ ∧
      (∀ v ∈ new, v ∈ cs ∧ s.paths[v]? = none) ∧ new.Nodup ∧
      (∀ v ∈ new, t[v]? = some (path ++ [v])) ∧ (∀ v, v ∉ new → t[v]? = s.paths[v]?) ∧
      ∀ v ∈ cs, (t[v]?).isSome = true := by
  induction cs generalizing s with
  | nil => exact ⟨[],s.paths,by simp [pure,Except.pure],by simp,.nil,by simp,by simp,by simp⟩
  | cons c cs ih =>
    rw [List.foldlM_cons]
    by_cases hc : c ∈ s.paths
    · obtain ⟨new,t,hfold,hfresh,hnodup,hadded,hkept,hclosed⟩ := ih h
      have hstep : discover id s c = .ok s := by rw [discover,if_pos hc]
      refine ⟨new,t,by rw [hstep]; exact hfold,fun v hv => ?_,hnodup,hadded,hkept,?_⟩
      · exact ⟨List.mem_cons_of_mem _ (hfresh v hv).1,(hfresh v hv).2⟩
      · simp only [List.mem_cons,forall_eq_or_imp]
        refine ⟨?_,hclosed⟩
        have hnew : c ∉ new := fun hmem => by
          rw [Std.ExtTreeMap.mem_iff_isSome_getElem?,(hfresh c hmem).2] at hc
          cases hc
        rw [hkept c hnew]
        exact Std.ExtTreeMap.mem_iff_isSome_getElem?.mp hc
    · have hnone : s.paths[c]? = none := Std.ExtTreeMap.getElem?_eq_none hc
      have hne : id ≠ c := fun heq => by
        rw [← heq,h] at hnone
        cases hnone
      have hstep : discover id s c =
          .ok ⟨s.queue ++ [c],s.paths.insert c (path ++ [c])⟩ := by
        rw [discover,if_neg hc,lookup_ok h]
        rfl
      have hread : ∀ v, (s.paths.insert c (path ++ [c]))[v]? =
          if c = v then some (path ++ [c]) else s.paths[v]? := by
        intro v
        simp only [Std.ExtTreeMap.getElem?_insert,Std.LawfulEqCmp.compare_eq_iff_eq]
      have hid : (s.paths.insert c (path ++ [c]))[id]? = some path := by
        rw [hread,if_neg (Ne.symm hne),h]
      obtain ⟨new,t,hfold,hfresh,hnodup,hadded,hkept,hclosed⟩ :=
        ih (s := ⟨s.queue ++ [c],s.paths.insert c (path ++ [c])⟩) hid
      have hfresh' : ∀ v ∈ new, c ≠ v ∧ s.paths[v]? = none := by
        intro v hv
        have hv := (hfresh v hv).2
        simp only [hread] at hv
        split at hv
        · cases hv
        · exact ⟨‹_›,hv⟩
      have hc' : c ∉ new := fun hmem => (hfresh' c hmem).1 rfl
      have htc : t[c]? = some (path ++ [c]) := by
        rw [hkept c hc']
        simp only [hread,if_true]
      refine ⟨c::new,t,?_,fun v hv => ?_,List.nodup_cons.mpr ⟨hc',hnodup⟩,?_,fun v hv => ?_,?_⟩
      · rw [hstep]
        simpa [bind,Except.bind] using hfold
      · rcases List.mem_cons.mp hv with rfl | hv
        · exact ⟨by simp,hnone⟩
        · exact ⟨List.mem_cons_of_mem _ (hfresh v hv).1,(hfresh' v hv).2⟩
      · simp only [List.mem_cons,forall_eq_or_imp]
        exact ⟨htc,hadded⟩
      · simp only [List.mem_cons,not_or] at hv
        rw [hkept v hv.2]
        simp only [hread,if_neg (Ne.symm hv.1)]
      · simp only [List.mem_cons,forall_eq_or_imp]
        exact ⟨by rw [htc]; rfl,hclosed⟩

namespace Metadata
variable (g : Metadata)

/-- `v` is a dependency of the node `u`. -/
def Depends (u v : String) : Prop := ∃ n, g.nodes[u]? = some n ∧ v ∈ n.deps.map (·.pkg)

/-- The paths found, as a function. -/
def found (t : Map (List String)) : Found String := fun v => t[v]?

variable {g}

theorem mem_values {t : Map α} {k : String} {x : α} (h : t[k]? = some x) : x ∈ values t :=
  List.mem_map.mpr ⟨(k,x),Std.ExtTreeMap.mem_toList_iff_getElem?_eq_some.mpr h,rfl⟩

theorem depends_mem {u v : String} (h : g.Depends u v) : v ∈ g.nodes := by
  obtain ⟨n,hn,hv⟩ := h
  obtain ⟨e,he,rfl⟩ := List.mem_map.mp hv
  exact ((g.resolved n (mem_values hn)).2 e he).2

theorem search_sound {n : ℕ} {s : Search} (h : Sound g.roots g.Depends s.queue (found s.paths))
    (hqueue : ∀ v ∈ s.queue, v ∈ g.nodes)
    (hn : remaining g.nodes.keys s.queue (found s.paths) ≤ n) :
    ∃ t, g.search n s = .ok t ∧ Sound g.roots g.Depends [] (found t) := by
  induction n generalizing s with
  | zero =>
    obtain ⟨queue,paths⟩ := s
    cases queue with
    | nil => exact ⟨paths,rfl,h⟩
    | cons u queue => simp [remaining] at hn
  | succ n ih =>
    obtain ⟨queue,paths⟩ := s
    cases queue with
    | nil => exact ⟨paths,rfl,h⟩
    | cons u queue =>
      obtain ⟨node,hnode⟩ := Option.isSome_iff_exists.mp
        (Std.ExtTreeMap.mem_iff_isSome_getElem?.mp (hqueue u (by simp)))
      obtain ⟨path,hpath⟩ := Option.isSome_iff_exists.mp (h.queued u (by simp))
      obtain ⟨new,t,hfold,hfresh,hnodup,hadded,hkept,hclosed⟩ :=
        discover_fold (s := ⟨queue,paths⟩) (node.deps.map (·.pkg)) hpath
      have hstep : Expands g.Depends (found paths) u new (found t) := by
        refine ⟨fun v hv => ⟨⟨node,hnode,(hfresh v hv).1⟩,(hfresh v hv).2⟩,hnodup,fun v hv => ?_,
          hkept,fun v hv => ?_⟩
        · rw [hpath]
          exact hadded v hv
        · obtain ⟨m,hm,hv⟩ := hv
          obtain rfl := Option.some.inj (hnode.symm.trans hm)
          exact hclosed v hv
      have hnew : ∀ v ∈ new, v ∈ g.nodes := fun v hv => depends_mem (hstep.fresh v hv).1
      have hless := @ShortestPaths.Expands.remaining_lt _ _ _ queue _ _ _ _
        Std.ExtTreeMap.nodup_keys (h.queued u (by simp)) hstep fun v hv =>
          Std.ExtTreeMap.mem_keys.mpr (hnew v hv)
      obtain ⟨r,hr,hsound⟩ := ih (s := ⟨queue ++ new,t⟩) (h.expand hstep)
        (fun v hv => (List.mem_append.mp hv).elim (fun hv => hqueue v (by simp [hv])) (hnew v))
        (by simp only [] at hn hless ⊢; omega)
      refine ⟨r,?_,hsound⟩
      rw [search,lookup_ok hnode]
      simp only [bind,Except.bind] at hfold ⊢
      rw [hfold]
      exact hr

theorem start_read (ids : List String) (t : Map (List String)) (v : String) :
    (ids.foldl (fun t id => t.insert id [id]) t)[v]? = if v ∈ ids then some [v] else t[v]? := by
  induction ids generalizing t with
  | nil => simp
  | cons id ids ih =>
    rw [List.foldl_cons,ih,Std.ExtTreeMap.getElem?_insert]
    by_cases hv : v ∈ ids
    · simp [hv]
    · by_cases hid : id = v
      · simp [hid]
      · simp [hv,hid,Ne.symm hid]

/-- The loop ends without a failed lookup, with the shortest path of each reachable node. -/
theorem paths_sound (g : Metadata) :
    ∃ t, g.paths = .ok t ∧ Sound g.roots g.Depends [] (found t) := by
  refine search_sound (sound_init (fun r hr => ?_) fun v hv => ?_) g.rooted ?_
  · simp [found,start,start_read,hr]
  · simp [found,start,start_read,hv]
  · have hle := List.length_filter_le (fun v => (found g.start.paths v).isNone) g.nodes.keys
    rw [Std.ExtTreeMap.length_keys] at hle
    simp only [remaining,start] at hle ⊢
    omega

end Metadata

/-! ## The graph of a document -/

/-- The resolved nodes of a document. -/
def Document.nodes (d : Document) : List Node := d.resolve.getD []

/-- A node of the document has an edge to `v`. -/
def Document.Depends (d : Document) (u v : String) : Prop :=
  ∃ n ∈ d.nodes, n.id = u ∧ v ∈ n.deps.map (·.pkg)

theorem mem_values_iff {t : Map α} {x : α} : x ∈ values t ↔ ∃ k : String, t[k]? = some x := by
  constructor
  · intro h
    obtain ⟨⟨k,y⟩,hf,rfl⟩ := List.mem_map.mp h
    exact ⟨k,Std.ExtTreeMap.mem_toList_iff_getElem?_eq_some.mp hf⟩
  · rintro ⟨k,hk⟩
    exact Metadata.mem_values hk

/-- Values with as many keys as there are values are all kept, each under its own key. -/
theorem collect_perm (key : α → String) {xs : List α} (h : (collect key xs).size = xs.length) :
    (values (collect key xs)).Perm xs := by
  have hkeyed := collect_keyed key xs
  have hkeys : (values (collect key xs)).map key = (collect key xs).keys := by
    rw [values,List.map_map,← Std.ExtTreeMap.map_fst_toList_eq_keys]
    refine List.map_congr_left fun f hf => ?_
    exact (hkeyed f.1 f.2 (Std.ExtTreeMap.mem_toList_iff_getElem?_eq_some.mp hf)).2
  have hnodup : (values (collect key xs)).Nodup := by
    refine List.Nodup.of_map key ?_
    rw [hkeys]
    exact Std.ExtTreeMap.nodup_keys
  refine List.Subperm.perm_of_length_le (hnodup.subperm fun x hx => ?_) ?_
  · obtain ⟨k,hk⟩ := mem_values_iff.mp hx
    exact (hkeyed k x hk).1
  · rw [values,List.length_map,Std.ExtTreeMap.length_toList,h]

namespace Metadata
variable {g : Metadata}

/-- What is accepted is the document's own graph. -/
structure Of (g : Metadata) (d : Document) : Prop where
  packages : (values g.packages).Perm d.packages
  nodes : (values g.nodes).Perm d.nodes
  roots : g.roots = d.workspaceMembers

theorem ofDocument_ok {d : Document} (h : ofDocument d = .ok g) : g.Of d := by
  unfold ofDocument at h
  split at h
  · cases h
  · rename_i nodeList hresolve
    dsimp only at h
    split_ifs at h with hcounts hresolved hrooted
    simp only [not_or,not_not] at hcounts
    obtain rfl := Except.ok.inj h
    have hnodes : d.nodes = nodeList := by rw [Document.nodes,hresolve,Option.getD_some]
    exact ⟨collect_perm _ hcounts.1,by rw [hnodes]; exact collect_perm _ hcounts.2.1,rfl⟩

theorem parse_ok {decode : List UInt8 → Except String Document} {bytes : List UInt8}
    (h : parse decode bytes = .ok g) : ∃ d, decode bytes = .ok d ∧ g.Of d := by
  obtain ⟨d,hd,h⟩ := bind_ok h
  exact ⟨d,hd,ofDocument_ok h⟩

theorem Of.depends {d : Document} (h : g.Of d) : g.Depends = d.Depends := by
  funext u v
  refine propext ⟨fun hu => ?_,fun hu => ?_⟩
  · obtain ⟨n,hn,hv⟩ := hu
    exact ⟨n,h.nodes.subset (mem_values hn),g.nodeKey u n hn,hv⟩
  · obtain ⟨n,hn,rfl,hv⟩ := hu
    obtain ⟨k,hk⟩ := mem_values_iff.mp (h.nodes.symm.subset hn)
    obtain rfl := g.nodeKey k n hk
    exact ⟨n,hk,hv⟩

theorem node_package {id : String} (h : id ∈ g.nodes) : ∃ p, g.packages[id]? = some p := by
  obtain ⟨n,hn⟩ := Option.isSome_iff_exists.mp (Std.ExtTreeMap.mem_iff_isSome_getElem?.mp h)
  have hmem := (g.resolved n (mem_values hn)).1
  rw [g.nodeKey id n hn] at hmem
  exact Option.isSome_iff_exists.mp (Std.ExtTreeMap.mem_iff_isSome_getElem?.mp hmem)

theorem walk_nodes {p : List String} {v : String} (h : Walk g.roots g.Depends p v) :
    ∀ id ∈ p, id ∈ g.nodes := by
  induction h with
  | root hr => simpa using g.rooted _ hr
  | step _ he ih =>
    intro id hid
    rcases List.mem_append.mp hid with hid | hid
    · exact ih id hid
    · rw [List.mem_singleton.mp hid]
      exact depends_mem he

end Metadata

theorem mapM_total {ε β γ : Type} {f : β → Except ε γ} {bs : List β} (h : ∀ b ∈ bs, ∃ c, f b = .ok c) :
    ∃ cs, bs.mapM f = .ok cs := by
  induction bs with
  | nil => exact ⟨[],rfl⟩
  | cons b bs ih =>
    obtain ⟨c,hc⟩ := h b (by simp)
    obtain ⟨cs,hcs⟩ := ih fun x hx => h x (by simp [hx])
    refine ⟨c::cs,?_⟩
    rw [List.mapM_cons]
    exact bind_ok_iff.mpr ⟨c,hc,bind_ok_iff.mpr ⟨cs,hcs,rfl⟩⟩

/-- What is reported of an edge: its node's package, the kinds of the edge, and a shortest path
to the node, empty when no root reaches it. -/
structure Reports (d : Document) (l : Node × Edge) (r : Parent) : Prop where
  package : ∃ p ∈ d.packages, p.id = l.1.id ∧ r.parent = p.identity.name ∧
    r.version = p.identity.version
  features : r.features = l.1.features
  kinds : r.dependencyKinds = l.2.depKinds
  path : (r.path = [] ∧ ∀ ids, ¬ Walk d.workspaceMembers d.Depends ids l.1.id) ∨
    (r.path ≠ [] ∧ ∃ ids, Shortest d.workspaceMembers d.Depends ids l.1.id ∧
      List.Forall₂ (fun id text => ∃ p ∈ d.packages, p.id = id ∧ text = spell p.identity) ids r.path)

namespace Metadata
variable {g : Metadata} {d : Document}

theorem describe_reports (hg : g.Of d) {t : Map (List String)}
    (ht : Sound g.roots g.Depends [] (found t)) {l : Node × Edge} (hl : l.1 ∈ values g.nodes) :
    ∃ r, g.describe t l.1 l.2 = .ok r ∧ Reports d l r := by
  obtain ⟨hfound,hnone⟩ := ht.shortest l.1.id
  rw [hg.roots,hg.depends] at hfound hnone
  obtain ⟨k,hk⟩ := mem_values_iff.mp hl
  obtain rfl := g.nodeKey k l.1 hk
  have hmem : l.1.id ∈ g.nodes := Std.ExtTreeMap.mem_iff_isSome_getElem?.mpr (by rw [hk]; rfl)
  obtain ⟨p,hp⟩ := node_package hmem
  have hpackage : ∀ id q, g.packages[id]? = some q → q ∈ d.packages ∧ q.id = id :=
    fun id q hq => ⟨hg.packages.subset (mem_values hq),g.packageKey id q hq⟩
  have hspell : ∀ id ∈ (t[l.1.id]?).getD [], ∃ text,
      (do let package ← lookup g.packages id; .ok (spell package.identity) : Except Fault String) =
        .ok text := by
    intro id hid
    cases hpath : t[l.1.id]? with
    | none => simp [hpath] at hid
    | some ids =>
      rw [hpath,Option.getD_some] at hid
      obtain ⟨q,hq⟩ := node_package (walk_nodes (ht.walks _ _ hpath) id hid)
      exact ⟨_,by rw [lookup_ok hq]; rfl⟩
  obtain ⟨path,hpath⟩ := mapM_total hspell
  refine ⟨⟨p.identity.name,p.identity.version,l.1.features,l.2.depKinds,path⟩,?_,?_⟩
  · rw [describe]
    exact bind_ok_iff.mpr ⟨p,lookup_ok hp,bind_ok_iff.mpr ⟨path,hpath,rfl⟩⟩
  · refine ⟨⟨p,(hpackage _ p hp).1,(hpackage _ p hp).2,rfl,rfl⟩,rfl,rfl,?_⟩
    have htexts := mapM_ok_iff.mp hpath
    cases hids : t[l.1.id]? with
    | none =>
      rw [hids] at htexts
      exact .inl ⟨List.forall₂_nil_left_iff.mp htexts,hnone.mp hids⟩
    | some ids =>
      rw [hids,Option.getD_some] at htexts
      have hshortest := hfound ids hids
      refine .inr ⟨fun hempty => hshortest.walk.ne_nil ?_,ids,hshortest,htexts.imp fun id text h => ?_⟩
      · simp only [] at hempty
        rw [hempty] at htexts
        exact List.forall₂_nil_right_iff.mp htexts
      · obtain ⟨q,hq,htext⟩ := bind_ok h
        unfold lookup at hq
        split at hq
        · rename_i x hx
          obtain rfl := Except.ok.inj hq
          exact ⟨x,(hpackage id x hx).1,(hpackage id x hx).2,(Except.ok.inj htext).symm⟩
        · cases hq

end Metadata

theorem links_perm {xs ys : List Node} (h : xs.Perm ys) : (links xs).Perm (links ys) :=
  h.flatMap_right _

theorem mem_links {nodes : List Node} {l : Node × Edge} (h : l ∈ links nodes) : l.1 ∈ nodes := by
  obtain ⟨n,hn,hl⟩ := List.mem_flatMap.mp h
  obtain ⟨e,-,rfl⟩ := List.mem_map.mp hl
  exact hn

theorem select_perm {ps qs : List Package} (h : ps.Perm qs) (name : String) (version : Option String)
    (id : String) : id ∈ select ps name version ↔ id ∈ select qs name version :=
  ((h.filter _).map _).mem_iff

/-- Dependency paths are shortest and total: on every accepted graph the search ends without a
failed lookup and finds a shortest path for exactly the reachable nodes, and each edge into a
selected package is reported once. -/
theorem paths_shortest {decode : List UInt8 → Except String Document} {bytes : List UInt8}
    {g : Metadata} (h : Metadata.parse decode bytes = .ok g) :
    ∃ d, decode bytes = .ok d ∧
      (∃ t, g.paths = .ok t ∧ ∀ id : String,
        (∀ p, t[id]? = some p → (∃ r ∈ d.workspaceMembers, p.head? = some r) ∧
          p.IsChain d.Depends ∧ p.getLast? = some id ∧
          ∀ q, Walk d.workspaceMembers d.Depends q id → p.length ≤ q.length) ∧
        (t[id]? = none ↔ ∀ p, ¬ Walk d.workspaceMembers d.Depends p id)) ∧
      ∀ name version, ∃ rs ls, g.parents name version = .ok rs ∧
        ls.Perm ((links d.nodes).filter fun l => l.2.pkg ∈ select d.packages name version) ∧
        List.Forall₂ (Reports d) ls rs := by
  obtain ⟨d,hd,hg⟩ := Metadata.parse_ok h
  obtain ⟨t,ht,hsound⟩ := g.paths_sound
  refine ⟨d,hd,⟨t,ht,fun id => ⟨fun p hp => ?_,?_⟩⟩,fun name version => ?_⟩
  · have hshortest := (hsound.shortest id).1 p hp
    rw [hg.roots,hg.depends] at hshortest
    exact ⟨hshortest.walk.head,hshortest.walk.chain,hshortest.walk.last,hshortest.least⟩
  · have hnone := (hsound.shortest id).2
    rw [hg.roots,hg.depends] at hnone
    exact hnone
  · have hreports : ∀ l ∈ (links (values g.nodes)).filter fun l => l.2.pkg ∈ g.targets name version,
        ∃ r, g.describe t l.1 l.2 = .ok r ∧ Reports d l r :=
      fun l hl => Metadata.describe_reports hg hsound (mem_links (List.mem_filter.mp hl).1)
    obtain ⟨rs,hrs⟩ := mapM_total fun l hl => (hreports l hl).imp fun r hr => hr.1
    refine ⟨rs,(links (values g.nodes)).filter fun l => l.2.pkg ∈ g.targets name version,?_,?_,?_⟩
    · rw [Metadata.parents,ht]
      exact hrs
    · refine ((links_perm hg.nodes).filter _).trans (List.Perm.of_eq ?_)
      refine List.filter_congr fun l _ => ?_
      exact decide_eq_decide.mpr (select_perm hg.packages name version l.2.pkg)
    · refine (List.forall₂_iff_get.mp (mapM_ok_iff.mp hrs)).elim fun hlength hget => ?_
      refine List.forall₂_iff_get.mpr ⟨hlength,fun i hi hi' => ?_⟩
      obtain ⟨r,hr,hreport⟩ := hreports _ (List.get_mem _ ⟨i,hi⟩)
      obtain rfl := Except.ok.inj ((hget i hi hi').symm.trans hr)
      exact hreport

/-- Two packages that depend on each other, the second also on a third by two names, and a
fourth that no root reaches. -/
def sampleDocument : Document where
  packages := [⟨"a",⟨"app","1.0.0",none⟩⟩,⟨"b",⟨"base","1.0.0",some "registry"⟩⟩,
    ⟨"c",⟨"core","2.0.0",some "registry"⟩⟩,⟨"z",⟨"stray","0.1.0",some "registry"⟩⟩]
  workspaceMembers := ["a"]
  resolve := some [⟨"a",["default"],[⟨"b",[]⟩]⟩,⟨"b",[],[⟨"a",[]⟩,⟨"c",[]⟩,⟨"c",[]⟩]⟩,⟨"c",[],[]⟩,
    ⟨"z",[],[⟨"c",[]⟩]⟩]

theorem sample_accepted :
    (Metadata.parse (fun _ => .ok sampleDocument) []).toOption.isSome = true := by decide +kernel

theorem sample_paths : ∃ g, Metadata.parse (fun _ => .ok sampleDocument) [] = .ok g ∧
    ∃ t, g.paths = .ok t := by
  cases h : Metadata.parse (fun _ => .ok sampleDocument) [] with
  | error e =>
    have hsome := sample_accepted
    rw [h] at hsome
    cases hsome
  | ok g =>
    obtain ⟨d,-,⟨t,ht,-⟩,-⟩ := paths_shortest h
    exact ⟨g,rfl,t,ht⟩

end DependencyGraph
end CanixToolbelt
