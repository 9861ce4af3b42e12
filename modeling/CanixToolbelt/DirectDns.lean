import Mathlib.Algebra.Order.Group.Nat
import CanixToolbelt.Fallible
import CanixToolbelt.IpAddr
import CanixToolbelt.Text

/-! The resolver's listening socket among all those of its network namespace. -/
namespace CanixToolbelt
namespace DirectNetwork
open Fallible Numerals Text

def port : ℕ := 5354
def socketRowLimit : ℕ := 4096

/-! ## Socket tables -/

/-- The octets of a word as the kernel prints it: in the order of the machine. -/
def nativeOctets (big : Bool) (word : ℕ) : List ℕ :=
  let octets := [word / 2^24,word / 2^16 % 256,word / 2^8 % 256,word % 256]
  if big then octets else octets.reverse

/-- The words of eight digits that an IPv6 address has. -/
def wordsOfEight (cs : List Char) : List (List Char) :=
  [cs.take 8,(cs.drop 8).take 8,(cs.drop 16).take 8,(cs.drop 24).take 8]

section
variable (big : Bool)

def endpoint (text : List Char) (v6 : Bool) : Except String (IpAddr × ℕ) :=
  match splitOnce ':' text with
  | none => .error "invalid proc socket endpoint"
  | some (address,port) => do
    let port ← fromStrRadix 16 (2^16) port
    require (address.all hexDigit) "invalid proc address encoding"
    if v6 then do
      require (address.length = 32) "invalid proc IPv6 socket endpoint"
      let octets ← (wordsOfEight address).mapM fun word => do
        let word ← fromStrRadix 16 (2^32) word
        .ok (nativeOctets big word)
      .ok (.v6 (IpAddr.paired octets.flatten),port)
    else do
      require (address.length = 8) "invalid proc IPv4 socket endpoint"
      let word ← fromStrRadix 16 (2^32) address
      .ok (.v4 (nativeOctets big word),port)

/-! ## The listener -/

def required (v6 : Bool) : IpAddr := if v6 then .v6 [0,0,0,0,0,0,0,1] else .v4 [127,0,0,54]

/-- An IPv4-mapped address as the IPv4 address that it is. -/
def normalized : IpAddr → IpAddr
  | .v6 [0,0,0,0,0,0xffff,a,b] => .v4 [a / 256,a % 256,b / 256,b % 256]
  | ip => ip

def unspecified (ip : IpAddr) : Bool :=
  ip = .v4 [0,0,0,0] || ip = .v6 [0,0,0,0,0,0,0,0]

/-- The rows of a table, each with the line feed that ends it. -/
def rows : List Char → List (List Char)
  | [] => []
  | c::cs =>
    if c = '\n' then [c] :: rows cs
    else match rows cs with
    | [] => [[c]]
    | row::rest => (c::row)::rest

def utf8Size (cs : List Char) : ℕ := (cs.map Char.utf8Size).sum

/-- Whether so many bytes of a text end with a whole character. -/
def whole : ℕ → List Char → Bool
  | _, [] => true
  | n, c::cs => if c.utf8Size ≤ n then whole (n - c.utf8Size) cs else n = 0

/-- A row is read up to one byte beyond its limit. -/
def bounded (row : List Char) : Except String Unit :=
  require (utf8Size row ≤ socketRowLimit)
    (if whole (socketRowLimit + 1) row then "resolver socket row exceeds bound"
      else "stream did not contain valid UTF-8")

def cell (row : List Char) (i : ℕ) : List Char := (splitWhitespace row).getD i []

def competing (v6 udp : Bool) (state : List Char) (here : IpAddr × ℕ) : Bool :=
  here.2 = port && here.1 ≠ required v6 &&
    (unspecified (normalized here.1) || normalized here.1 = .v4 [127,0,0,54]) &&
    (udp || state = ['0','A'])

/-- One row behind the header, with the listener found so far. -/
def scanRow (v6 udp : Bool) (listener : Option ℕ) (row : List Char) :
    Except String (Option ℕ) := do
  bounded row
  require (10 ≤ (splitWhitespace row).length) "truncated proc socket row"
  let here ← endpoint big (cell row 1) v6
  if competing v6 udp (cell row 3) here then
    .error "competing wildcard or mapped resolver socket"
  else if here ≠ (required v6,port) then .ok listener
  else if udp ∧ cell row 3 ≠ ['0','7'] then
    .error "competing connected or incompatible UDP resolver socket"
  else if udp = false ∧ cell row 3 ≠ ['0','A'] then .ok listener
  else do
    let peer ← endpoint big (cell row 2) v6
    require (unspecified peer.1 ∧ peer.2 = 0) "connected resolver listener"
    let inode ← fromStrRadix 10 (2^64) (cell row 9)
    require listener.isNone "ambiguous resolver listener"
    .ok (some inode)

def scanTable (v6 udp : Bool) : List (List Char) → Except String (Option ℕ)
  | [] => .ok none
  | header::data => do
    bounded header
    data.foldlM (scanRow big v6 udp) none

def listenerInode (table : List Char) (v6 udp : Bool) (owned : Finset ℕ) : Except String ℕ := do
  let listener ← scanTable big v6 udp (rows table)
  match listener.filter fun inode => inode ≠ 0 && inode ∈ owned with
  | some inode => .ok inode
  | none => .error "missing or foreign resolver listener"

/-! ## Ownership -/

/-- Ten fields and a local endpoint. -/
structure WellFormed (v6 : Bool) (row : List Char) : Prop where
  fields : 10 ≤ (splitWhitespace row).length
  here : ∃ here, endpoint big (cell row 1) v6 = .ok here

/-- The row is at the required endpoint. -/
def AtResolver (v6 : Bool) (row : List Char) : Prop :=
  endpoint big (cell row 1) v6 = .ok (required v6,port)

instance (v6 : Bool) : DecidablePred (AtResolver big v6) :=
  fun _ => inferInstanceAs (Decidable (_ = _))

/-- It is there in the state of a listener. -/
def listens (v6 udp : Bool) (row : List Char) : Bool :=
  AtResolver big v6 row && cell row 3 = if udp then ['0','7'] else ['0','A']

/-- Another address of the port takes what is sent to the resolver. -/
def Competes (v6 udp : Bool) (row : List Char) : Prop :=
  ∃ ip, endpoint big (cell row 1) v6 = .ok (ip,port) ∧ ip ≠ required v6 ∧
    (unspecified (normalized ip) ∨ normalized ip = .v4 [127,0,0,54]) ∧
    (udp ∨ cell row 3 = ['0','A'])

/-- The row is of an unconnected socket with this inode. -/
structure Unconnected (v6 : Bool) (row : List Char) (inode : ℕ) : Prop where
  peer : ∃ ip, endpoint big (cell row 2) v6 = .ok (ip,0) ∧ unspecified ip
  inode : fromStrRadix 10 (2^64) (cell row 9) = .ok inode

/-- The inode is that of the one listener of the resolver, and owned. -/
structure Listener (v6 udp : Bool) (owned : Finset ℕ) (table : List (List Char)) (inode : ℕ) :
    Prop where
  bound : ∀ row ∈ table, utf8Size row ≤ socketRowLimit
  form : ∀ row ∈ table.tail, WellFormed big v6 row
  sole : ∃ row, table.tail.filter (listens big v6 udp) = [row] ∧ Unconnected big v6 row inode
  state : udp → ∀ row ∈ table.tail, AtResolver big v6 row → cell row 3 = ['0','7']
  owned : inode ≠ 0 ∧ inode ∈ owned
  alone : ∀ row ∈ table.tail, ¬ Competes big v6 udp row

structure Tolerable (v6 udp : Bool) (row : List Char) : Prop where
  bound : utf8Size row ≤ socketRowLimit
  form : WellFormed big v6 row
  alone : ¬ Competes big v6 udp row
  state : udp → AtResolver big v6 row → cell row 3 = ['0','7']

variable {big}

theorem competing_iff {v6 udp : Bool} {row : List Char} {here : IpAddr × ℕ}
    (h : endpoint big (cell row 1) v6 = .ok here) :
    competing v6 udp (cell row 3) here ↔ Competes big v6 udp row := by
  obtain ⟨ip,p⟩ := here
  simp only [competing,Competes,h,Bool.and_eq_true,Bool.or_eq_true,decide_eq_true_eq,
    Except.ok.injEq,Prod.mk.injEq,ne_eq]
  constructor
  · rintro ⟨⟨⟨rfl,hne⟩,hip⟩,hstate⟩
    exact ⟨ip,⟨rfl,rfl⟩,hne,hip,hstate⟩
  · rintro ⟨_,⟨rfl,rfl⟩,hne,hip,hstate⟩
    exact ⟨⟨⟨rfl,hne⟩,hip⟩,hstate⟩

theorem listens_iff {v6 udp : Bool} {row : List Char} : listens big v6 udp row ↔
    AtResolver big v6 row ∧ cell row 3 = if udp then ['0','7'] else ['0','A'] := by
  simp [listens]

/-- A row keeps the listener unless it listens, and is then the first to do so. -/
theorem scanRow_ok_iff {v6 udp : Bool} {listener listener' : Option ℕ} {row : List Char} :
    scanRow big v6 udp listener row = .ok listener' ↔ Tolerable big v6 udp row ∧
      ((listens big v6 udp row = false ∧ listener' = listener) ∨
        (listens big v6 udp row ∧ listener = none ∧
          ∃ inode, Unconnected big v6 row inode ∧ listener' = some inode)) := by
  unfold scanRow bounded
  simp only [bind_ok_iff,require_ok_iff]
  constructor
  · rintro ⟨-,hbound,-,hfields,here,hhere,h⟩
    have hat : AtResolver big v6 row ↔ here = (required v6,port) := by
      rw [AtResolver,hhere,Except.ok.injEq]
    have htolerable (hc : ¬ competing v6 udp (cell row 3) here)
        (hstate : udp → here = (required v6,port) → cell row 3 = ['0','7']) :
        Tolerable big v6 udp row :=
      ⟨hbound,⟨hfields,here,hhere⟩,fun h => hc ((competing_iff hhere).mpr h),
        fun hudp h => hstate hudp (hat.mp h)⟩
    split_ifs at h with hc hne hudp htcp
    · refine ⟨htolerable hc fun _ h => absurd h hne,.inl ⟨?_,(Except.ok.inj h).symm⟩⟩
      rw [← Bool.not_eq_true,listens_iff,hat]
      exact fun h => hne h.1
    · refine ⟨htolerable hc fun h => by simp [htcp.1] at h,.inl ⟨?_,(Except.ok.inj h).symm⟩⟩
      rw [← Bool.not_eq_true,listens_iff,htcp.1]
      exact fun h => htcp.2 h.2
    · obtain ⟨peer,hpeer,h⟩ := bind_ok h
      simp only [bind_ok_iff,require_ok_iff] at h
      obtain ⟨-,⟨hunspecified,hzero⟩,inode,hinode,-,hnone,h⟩ := h
      have hstate : cell row 3 = if udp then ['0','7'] else ['0','A'] := by
        cases udp <;> simp_all
      refine ⟨htolerable hc fun h _ => by simpa [h] using hstate,.inr ⟨?_,?_,inode,?_,?_⟩⟩
      · exact listens_iff.mpr ⟨hat.mpr (not_not.mp hne),hstate⟩
      · simpa using hnone
      · exact ⟨⟨peer.1,by rw [hpeer,← hzero],hunspecified⟩,hinode⟩
      · exact (Except.ok.inj h).symm
  · rintro ⟨htolerable,hcases⟩
    obtain ⟨here,hhere⟩ := htolerable.form.here
    have hat : AtResolver big v6 row ↔ here = (required v6,port) := by
      rw [AtResolver,hhere,Except.ok.injEq]
    refine ⟨(),htolerable.bound,(),htolerable.form.fields,here,hhere,?_⟩
    rw [if_neg (mt (competing_iff hhere).mp htolerable.alone)]
    rcases hcases with ⟨hnot,rfl⟩ | ⟨hlistens,rfl,inode,hinode,rfl⟩
    · by_cases hne : here = (required v6,port)
      · have hstate : cell row 3 ≠ if udp then ['0','7'] else ['0','A'] := by
          intro h
          rw [listens_iff.mpr ⟨hat.mpr hne,h⟩] at hnot
          cases hnot
        cases udp with
        | true => exact absurd (htolerable.state rfl (hat.mpr hne)) hstate
        | false =>
          rw [if_neg (by simpa using hne),if_neg (by simp),if_pos ⟨rfl,by simpa using hstate⟩]
      · rw [if_pos hne]
    · obtain ⟨hresolver,hstate⟩ := listens_iff.mp hlistens
      obtain ⟨ip,hpeer,hunspecified⟩ := hinode.peer
      rw [if_neg (not_not.mpr (hat.mp hresolver))]
      have hlast : (do
          let peer ← endpoint big (cell row 2) v6
          require (unspecified peer.1 ∧ peer.2 = 0) "connected resolver listener"
          let inode ← fromStrRadix 10 (2^64) (cell row 9)
          require (none : Option ℕ).isNone "ambiguous resolver listener"
          Except.ok (some inode)) = .ok (some inode) := by
        simp only [bind_ok_iff,require_ok_iff]
        exact ⟨(ip,0),hpeer,(),⟨hunspecified,rfl⟩,inode,hinode.inode,(),rfl,rfl⟩
      cases udp with
      | true =>
        rw [if_neg (by simpa using hstate),if_neg (by simp)]
        exact hlast
      | false =>
        rw [if_neg (by simp),if_neg (by simpa using hstate)]
        exact hlast

/-- A scan that refuses some items and keeps what the one selected item says. -/
theorem sole_ok_iff {ε α β : Type} {f : Option β → α → Except ε (Option β)} {P : α → Prop}
    {sel : α → Bool} {R : α → β → Prop}
    (hstep : ∀ l a l', f l a = .ok l' ↔ P a ∧ ((sel a = false ∧ l' = l) ∨
      (sel a ∧ l = none ∧ ∃ b, R a b ∧ l' = some b))) {as : List α} {l l' : Option β} :
    as.foldlM f l = .ok l' ↔ (∀ a ∈ as, P a) ∧ ((as.filter sel = [] ∧ l' = l) ∨
      (l = none ∧ ∃ a b, as.filter sel = [a] ∧ R a b ∧ l' = some b)) := by
  induction as generalizing l with
  | nil => simp [pure,Except.pure,eq_comm]
  | cons a as ih =>
    rw [List.foldlM_cons,bind_ok_iff]
    constructor
    · rintro ⟨m,hm,h⟩
      obtain ⟨ha,hcases⟩ := (hstep l a m).mp hm
      obtain ⟨hall,hrest⟩ := ih.mp h
      refine ⟨by simpa using ⟨ha,hall⟩,?_⟩
      rcases hcases with ⟨hsel,rfl⟩ | ⟨hsel,rfl,b,hb,rfl⟩
      · rwa [List.filter_cons_of_neg (by simp [hsel])]
      · rcases hrest with ⟨hnil,rfl⟩ | ⟨hnone,-⟩
        · exact .inr ⟨rfl,a,b,by rw [List.filter_cons_of_pos hsel,hnil],hb,rfl⟩
        · cases hnone
    · rintro ⟨hall,hcases⟩
      have ha := hall a (by simp)
      have hall : ∀ a ∈ as, P a := fun x hx => hall x (by simp [hx])
      cases hsel : sel a with
      | false =>
        rw [List.filter_cons_of_neg (by simp [hsel])] at hcases
        exact ⟨l,(hstep l a l).mpr ⟨ha,.inl ⟨hsel,rfl⟩⟩,ih.mpr ⟨hall,hcases⟩⟩
      | true =>
        rw [List.filter_cons_of_pos hsel] at hcases
        rcases hcases with ⟨hnil,-⟩ | ⟨rfl,x,b,hx,hb,rfl⟩
        · cases hnil
        · obtain ⟨rfl,hnil⟩ := List.cons.inj hx
          exact ⟨some b,(hstep none a _).mpr ⟨ha,.inr ⟨hsel,rfl,b,hb,rfl⟩⟩,
            ih.mpr ⟨hall,.inl ⟨hnil,rfl⟩⟩⟩

theorem scanRows_ok_iff {v6 udp : Bool} {data : List (List Char)} {listener : Option ℕ} :
    data.foldlM (scanRow big v6 udp) none = .ok listener ↔
      (∀ row ∈ data, Tolerable big v6 udp row) ∧
        ((data.filter (listens big v6 udp) = [] ∧ listener = none) ∨
          ∃ row inode, data.filter (listens big v6 udp) = [row] ∧
            Unconnected big v6 row inode ∧ listener = some inode) := by
  have hscan := @sole_ok_iff _ _ _ (scanRow big v6 udp) (Tolerable big v6 udp)
    (listens big v6 udp) (Unconnected big v6) (fun _ _ _ => scanRow_ok_iff) data none listener
  simpa only [true_and] using hscan

theorem scanTable_ok_iff {v6 udp : Bool} {owned : Finset ℕ} {table : List (List Char)} {inode : ℕ} :
    (∃ listener, scanTable big v6 udp table = .ok listener ∧
      listener.filter (fun inode => inode ≠ 0 && inode ∈ owned) = some inode) ↔
        Listener big v6 udp owned table inode := by
  cases table with
  | nil =>
    constructor
    · rintro ⟨listener,h,hfilter⟩
      obtain rfl := Except.ok.inj h
      cases hfilter
    · rintro h
      obtain ⟨row,hrow,-⟩ := h.sole
      cases hrow
  | cons header data =>
    simp only [scanTable,bounded,bind_ok_iff,require_ok_iff,scanRows_ok_iff,
      true_and]
    constructor
    · rintro ⟨listener,⟨-,hheader,hall,hcases⟩,hfilter⟩
      rcases hcases with ⟨-,rfl⟩ | ⟨row,found,hrow,hfound,rfl⟩
      · cases hfilter
      · obtain ⟨rfl,howned⟩ : found = inode ∧ _ := by
          simpa [Option.filter_eq_some_iff] using hfilter
        refine ⟨?_,fun row hin => (hall row hin).form,⟨row,hrow,hfound⟩,
          fun hudp row hin => (hall row hin).state hudp,?_,fun row hin => (hall row hin).alone⟩
        · exact List.forall_mem_cons.mpr ⟨hheader,fun row hin => (hall row hin).bound⟩
        · simpa using howned
    · rintro h
      obtain ⟨row,hrow,hinode⟩ := h.sole
      obtain ⟨hheader,hbound⟩ := List.forall_mem_cons.mp h.bound
      refine ⟨some inode,⟨(),hheader,fun row hin => ?_,.inr ⟨row,inode,hrow,hinode,rfl⟩⟩,?_⟩
      · exact ⟨hbound row hin,h.form row hin,h.alone row hin,fun hudp => h.state hudp row hin⟩
      · simp [Option.filter_some,h.owned]

theorem listenerInode_ok_iff {v6 udp : Bool} {owned : Finset ℕ} {table : List Char} {inode : ℕ} :
    listenerInode big table v6 udp owned = .ok inode ↔
      Listener big v6 udp owned (rows table) inode := by
  rw [← scanTable_ok_iff]
  unfold listenerInode
  rw [bind_ok_iff]
  refine exists_congr fun listener => and_congr_right fun _ => ?_
  cases listener.filter (fun inode => inode ≠ 0 && inode ∈ owned) <;> simp

theorem Listener.perm {v6 udp : Bool} {owned : Finset ℕ} {table table' : List (List Char)}
    {inode : ℕ} (hhead : table.head? = table'.head?) (htail : table.tail.Perm table'.tail)
    (h : Listener big v6 udp owned table inode) : Listener big v6 udp owned table' inode := by
  refine ⟨fun row hin => ?_,fun row hin => h.form row (htail.mem_iff.mpr hin),?_,
    fun hudp row hin => h.state hudp row (htail.mem_iff.mpr hin),h.owned,
    fun row hin => h.alone row (htail.mem_iff.mpr hin)⟩
  · cases table' with
    | nil => cases hin
    | cons header data =>
      rcases List.mem_cons.mp hin with rfl | hin
      · exact h.bound row (List.mem_of_mem_head? (hhead ▸ rfl))
      · exact h.bound row (List.mem_of_mem_tail (htail.mem_iff.mpr hin))
  · obtain ⟨row,hrow,hinode⟩ := h.sole
    have hfilter := htail.filter (listens big v6 udp)
    rw [hrow] at hfilter
    exact ⟨row,List.singleton_perm.mp hfilter ▸ rfl,hinode⟩

/-- The inode returned is that of the one listener, owned and without competitors; the order of
the rows behind the header decides at most which error is reported. -/
theorem listener_exact (big v6 udp : Bool) (owned : Finset ℕ) (table : List Char) :
    (∀ inode, listenerInode big table v6 udp owned = .ok inode ↔
      Listener big v6 udp owned (rows table) inode) ∧
    ∀ table', (rows table).head? = (rows table').head? → (rows table).tail.Perm (rows table').tail →
      (listenerInode big table v6 udp owned).toOption =
        (listenerInode big table' v6 udp owned).toOption := by
  refine ⟨fun inode => listenerInode_ok_iff,fun table' hhead htail => ?_⟩
  refine Option.ext fun inode => ?_
  have hok (r : Except String ℕ) : r.toOption = some inode ↔ r = .ok inode := by
    cases r <;> simp [Except.toOption]
  rw [hok,hok,listenerInode_ok_iff,listenerInode_ok_iff]
  exact ⟨.perm hhead htail,.perm hhead.symm htail.symm⟩

/-- The resolver's listener, and another socket. -/
def listening : List Char :=
  "sl\n0: 3600007F:14EA 00000000:0000 0A 4 5 6 7 8 77\n1: 0100007F:0050 0:0 01 4 5 6 7 8 9\n".toList
def listeningLast : List Char :=
  "sl\n1: 0100007F:0050 0:0 01 4 5 6 7 8 9\n0: 3600007F:14EA 00000000:0000 0A 4 5 6 7 8 77\n".toList

theorem listening_reordered : (listenerInode false listeningLast false false {77}).toOption = some 77 := by
  have hperm := (listener_exact false false false {77} listening).2 listeningLast (by decide)
    (List.Perm.swap _ _ _)
  rw [← hperm]
  decide +kernel

/-- A header, a row cut short, and one of a wildcard socket on the resolver's port. -/
def shortFirst : List Char := "sl\n0:\n1: 00000000:14EA 00000000:0000 0A 4 5 6 7 8 9\n".toList
def shortLast : List Char := "sl\n1: 00000000:14EA 00000000:0000 0A 4 5 6 7 8 9\n0:\n".toList

theorem error_ordered :
    (rows shortFirst).head? = (rows shortLast).head? ∧
      (rows shortFirst).tail.Perm (rows shortLast).tail ∧
      listenerInode false shortFirst false false ∅ = .error "truncated proc socket row" ∧
      listenerInode false shortLast false false ∅ =
        .error "competing wildcard or mapped resolver socket" := by
  decide +kernel

end

end DirectNetwork
end CanixToolbelt
