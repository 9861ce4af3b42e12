import Mathlib.Data.List.Nodup
import CanixToolbelt.Fallible
import CanixToolbelt.Json
import CanixToolbelt.Transcript

/-! Complete, read-only collection of forge histories: connections followed by their cursors,
and numbered pages of rows and of checks, each within the budget of requests of one collection. -/
namespace CanixToolbelt
namespace Snapshots
open Effect Json Fallible

/-! ## Transports -/

def requestLimit : ℕ := 128

/-- A GraphQL transport answers a query by its data; what remains of the budget is its memory. -/
abbrev Graph := Script String (fun _ => Json) ℕ String

/-- A decoded native response and its row count, absent where it is missing, doubled or malformed. -/
structure ForgeResponse where
  body : Json
  totalCount : Option ℕ
  deriving DecidableEq

/-- The host and path of a request. -/
structure Get where
  host : String
  path : String
  deriving DecidableEq, Repr

abbrev Rest := Script Get (fun _ => ForgeResponse) ℕ String

/-- One request of a budget. -/
def bounded {Q : Type} {B : Q → Type} (exhausted : String) (q : Q) : Script Q B ℕ String (B q) := do
  let remaining ← get
  if remaining = 0 then throw exhausted
  else do
    set (remaining - 1)
    Script.ask q

def query (text : String) : Graph Json :=
  bounded "aggregate GitHub request budget exhausted" text

def forgeGet (host path : String) : Rest ForgeResponse :=
  bounded "aggregate Forgejo request budget exhausted" (Get.mk host path)

/-! ## Identities -/

section
variable {α : Type} [DecidableEq α]

/-- The identities seen so far with those of some rows, if each has one and none is repeated. -/
def insertIds (id : Json → Option α) : List α → List Json → Option (List α)
  | ids, [] => some ids
  | ids, row::rows =>
    match id row with
    | none => none
    | some i => if i ∈ ids then none else insertIds id (i::ids) rows

/-- These rows have these identities, and no two the same. -/
def Identified (id : Json → Option α) (rows : List Json) (ids : List α) : Prop :=
  rows.map id = ids.map some ∧ ids.Nodup

theorem insertIds_some {id : Json → Option α} {rows : List Json} {seen ids : List α}
    (h : insertIds id seen rows = some ids) (hseen : seen.Nodup) :
    ∃ new, rows.map id = new.map some ∧ (seen.reverse ++ new).Nodup ∧ ids = new.reverse ++ seen := by
  induction rows generalizing seen with
  | nil =>
    obtain rfl := Option.some.inj h
    exact ⟨[],rfl,by simpa using hseen,rfl⟩
  | cons row rows ih =>
    unfold insertIds at h
    cases hi : id row with
    | none =>
      rw [hi] at h
      cases h
    | some i =>
      rw [hi] at h
      dsimp only at h
      split at h
      · cases h
      · rename_i hnew
        obtain ⟨new,hmap,hnodup,rfl⟩ := ih h (List.nodup_cons.mpr ⟨hnew,hseen⟩)
        refine ⟨i::new,by simp [hi,hmap],?_,by simp⟩
        simpa using hnodup

theorem insertIds_fresh {id : Json → Option α} {rows : List Json} {seen new : List α}
    (hmap : rows.map id = new.map some) (hnodup : (seen.reverse ++ new).Nodup) :
    insertIds id seen rows = some (new.reverse ++ seen) := by
  induction rows generalizing seen new with
  | nil =>
    obtain rfl : new = [] := by simpa using hmap.symm
    rfl
  | cons row rows ih =>
    cases new with
    | nil => cases hmap
    | cons i new =>
      rw [List.map_cons,List.map_cons] at hmap
      obtain ⟨hi,hmap⟩ := List.cons.inj hmap
      have hnew : i ∉ seen := by
        intro hmem
        have hdisjoint := (List.nodup_append.mp hnodup).2.2 i (List.mem_reverse.mpr hmem) i (by simp)
        exact hdisjoint rfl
      unfold insertIds
      rw [hi]
      dsimp only
      rw [if_neg hnew,ih hmap (by simpa using hnodup)]
      simp

end

/-! ## Connections -/

/-- A node's nonempty identity. -/
def nodeId (node : Json) : Option String := (node.get "id").asStr.filter (· ≠ "")

section
variable (text : String → String) (pick : Json → Json)

/-- Follow the cursors of a connection, `left` more of them at most; `text` is the query for the
page behind a cursor and `pick` the connection in its data. -/
def follow (total : ℕ) : ℕ → List String → List Json → Json → Graph (List Json × Json)
  | left, seen, nodes, value =>
    match (value.get "pageInfo").get "hasNextPage" with
    | .bool false => pure (nodes,value)
    | .bool true =>
      match ((value.get "pageInfo").get "endCursor").asStr.filter (· ≠ "") with
      | none => throw "missing pagination cursor"
      | some cursor =>
        match left with
        | 0 => throw "pagination bound or repeated cursor; history incomplete"
        | left+1 =>
          if cursor ∈ seen then throw "pagination bound or repeated cursor; history incomplete"
          else do
            let data ← query (text cursor)
            let page := pick data
            if (page.get "totalCount").asU64 ≠ some total then
              throw "connection total changed during collection"
            else match (page.get "nodes").asArray with
            | none => throw "missing next-page nodes"
            | some items =>
              if items.length > 100 then throw "next page exceeds requested bound"
              else
                let value := value.set "pageInfo" (page.get "pageInfo")
                follow total left (cursor::seen) (nodes ++ items) value
    | _ => throw "missing connection pagination"

/-- Complete the first page of a connection. -/
def connection (value : Json) : Graph Json :=
  match (value.get "nodes").asArray with
  | none => throw "missing connection nodes"
  | some nodes =>
    if nodes.length > 100 then throw "initial connection page exceeds requested bound"
    else match (value.get "totalCount").asU64 with
    | none => throw "missing or malformed connection total"
    | some total => do
      let (nodes,value) ← follow text pick total 20 [] nodes value
      if total ≠ nodes.length then throw "connection count does not establish complete history"
      else match insertIds nodeId [] nodes with
      | none => throw "missing or repeated connection identity; history incomplete"
      | some _ => pure (value.set "nodes" (.arr nodes))

end

/-! ## Numbered pages -/

/-- A row's positive identity. -/
def rowId (row : Json) : Option ℕ := (row.get "id").asU64.filter (0 < ·)

def pagePath (path : String) (page : ℕ) : String := path ++ "?limit=100&page=" ++ toString page

/-- Pages from the given one on, at most `n` of them. -/
def forgePagesFrom (host path : String) : ℕ → ℕ → List Json → List ℕ → Option ℕ → Rest (List Json)
  | 0, _, _, _, _ => throw "forge history exceeds pagination bound"
  | n+1, page, result, ids, declared => do
    let response ← forgeGet host (pagePath path page)
    match response.totalCount with
    | none => throw "missing native forge history total"
    | some total =>
      if declared.any (· ≠ total) then throw "forge history total moved during collection"
      else if total > 2000 then throw "forge history exceeds 2000 rows"
      else match response.body.asArray with
      | none => throw "missing forge page"
      | some rows =>
        if rows.length ≠ min (total - result.length) 100 then throw "incomplete forge history page"
        else match insertIds rowId ids rows with
        | none => throw "missing or repeated forge history identity"
        | some ids =>
          if (result ++ rows).length = total ∧ (rows.length < 100 ∨ page = 21) then
            pure (result ++ rows)
          else forgePagesFrom host path n (page + 1) (result ++ rows) ids (some total)

def forgePages (host path : String) : Rest (List Json) := forgePagesFrom host path 21 1 [] [] none

/-! ## Checks -/

def field (value : Json) (name : String) : Except String Json :=
  match value.get? name with
  | some v => .ok v
  | none => .error ("missing native field " ++ name)

def string (value : Json) (name : String) : Except String Unit := do
  let v ← field value name
  require v.isString ("malformed native string " ++ name)

def nonempty (value : Json) (name : String) : Except String Unit := do
  string value name
  require ((value.get name).asStr.any (· ≠ "")) ("empty native field " ++ name)

def enumeration (value : Json) (name : String) (choices : List String) : Except String Unit := do
  let v ← field value name
  require (v.asStr.any (· ∈ choices)) ("unsupported native enum " ++ name)

def forgeStatusStates : List String := ["pending","success","error","failure","warning","skipped"]

section
variable (rfc3339 : String → Option ℤ)

def timestamp (value : Json) (name : String) : Except String Unit := do
  let v ← field value name
  require (v.asStr.any fun s => (rfc3339 s).isSome) ("malformed native timestamp " ++ name)

def forgeUser (value : Json) (name : String) : Except String Unit := do
  let v ← field value name
  if v.isNull then pure ()
  else do
    require (((value.get name).get "id").asU64.any (0 < ·)) "malformed forge user identity"
    nonempty (value.get name) "login"

/-- The fields that a check has to have. -/
def forgeContext (status : Json) : Except String Unit := do
  enumeration status "status" forgeStatusStates
  string status "context"
  string status "description"
  string status "target_url"
  string status "url"
  forgeUser status "creator"
  timestamp rfc3339 status "created_at"
  timestamp rfc3339 status "updated_at"

def checksPath (stem head : String) (page : ℕ) : String :=
  stem ++ "/commits/" ++ head ++ "/status?limit=100&page=" ++ toString page

def checked {α : Type} (r : Except String α) : Rest α := ExceptT.mk (pure r)

/-- One more page of checks, of the same revision, state and total as the first one. -/
def moreChecks (host stem head : String) (first : Json) (total : ℕ) (statuses : List Json)
    (page : ℕ) : Rest (List Json) := do
  let response ← forgeGet host (checksPath stem head page)
  let next := response.body
  if next.get "sha" ≠ first.get "sha" ∨ next.get "state" ≠ first.get "state" ∨
      next.get "total_count" ≠ first.get "total_count" then
    throw "forge check rollup moved during collection"
  else match (next.get "statuses").asArray with
  | none => throw "missing forge check page"
  | some rows =>
    -- the pages so far are never more than the total
    if rows.length ≠ min (total - statuses.length) 100 then throw "incomplete forge check page"
    else pure (statuses ++ rows)

def forgeChecks (host stem head : String) : Rest Json := do
  let response ← forgeGet host (checksPath stem head 1)
  let first := response.body
  match (first.get "total_count").asU64 with
  | none => throw "missing forge check total"
  | some total =>
    if total > 2000 ∨ first.get "sha" ≠ .str head ∨ (first.get "state").isString = false then
      throw "invalid or oversized forge check identity"
    else do
      checked (enumeration first "state" forgeStatusStates)
      match (first.get "statuses").asArray with
      | none => throw "missing forge check contexts"
      | some statuses =>
        if statuses.length ≠ min total 100 then throw "incomplete initial forge check page"
        else do
          let statuses ← (List.range' 2 ((total + 99) / 100 - 1)).foldlM
            (moreChecks host stem head first total) statuses
          match insertIds rowId [] statuses with
          | none => throw "missing or repeated forge check context"
          | some _ => do
            checked (statuses.forM (forgeContext rfc3339))
            pure (first.set "statuses" (.arr statuses))

end
end Snapshots
end CanixToolbelt
