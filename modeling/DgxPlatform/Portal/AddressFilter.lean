import DgxPlatform.Lib.IpAddr
import DgxPlatform.Lib.Text

/-! # The internal addresses

`is_blocked_ip` refuses the addresses that Python's `ipaddress` calls internal, and the
shared range 100.64.0.0/10. The networks are written as texts.
-/

namespace Portal.AddressFilter

open Ip Text

/-! ## The networks -/

/-- `parse::<u32>`. -/
def parseLen (t : List Char) : Option Nat :=
  let digits := if t.head? = some '+' then t.tail else t
  let value := digits.foldl (fun n c => 10 * n + (c.toNat - 48)) 0
  if digits ≠ [] ∧ digits.all Char.isDigit = true ∧ value < 2 ^ 32 then some value else none

def netV4 (net : List Char) : Net 32 :=
  let (addr, len) := (splitOnce ['/'] net).getD (net, "32".toList)
  ⟨(parseV4 addr).getD 0, (parseLen len).getD 32⟩

def netV6 (net : List Char) : Net 128 :=
  let (addr, len) := (splitOnce ['/'] net).getD (net, "128".toList)
  ⟨(parseV6 addr).getD 0, (parseLen len).getD 128⟩

/-- `in_v4`. -/
def inV4 (ip : BitVec 32) (net : List Char) : Bool := (netV4 net).has ip

/-- `in_v6`. -/
def inV6 (ip : BitVec 128) (net : List Char) : Bool := (netV6 net).has ip

def V4_PRIVATE : List (List Char) :=
  ["0.0.0.0/8", "10.0.0.0/8", "127.0.0.0/8", "169.254.0.0/16", "172.16.0.0/12", "192.0.0.0/24",
    "192.0.0.170/31", "192.0.2.0/24", "192.168.0.0/16", "198.18.0.0/15", "198.51.100.0/24",
    "203.0.113.0/24", "240.0.0.0/4", "255.255.255.255/32"].map String.toList

def V4_PRIVATE_EXCEPTIONS : List (List Char) := ["192.0.0.9/32", "192.0.0.10/32"].map String.toList

def V6_PRIVATE : List (List Char) :=
  ["::1/128", "::/128", "::ffff:0.0.0.0/96", "64:ff9b:1::/48", "100::/64", "2001::/23",
    "2001:db8::/32", "2002::/16", "3fff::/20", "fc00::/7", "fe80::/10"].map String.toList

def V6_PRIVATE_EXCEPTIONS : List (List Char) :=
  ["2001:1::1/128", "2001:1::2/128", "2001:3::/32", "2001:4:112::/48", "2001:20::/28",
    "2001:30::/28"].map String.toList

def V6_RESERVED : List (List Char) :=
  ["::/8", "100::/8", "200::/7", "400::/6", "800::/5", "1000::/4", "4000::/3", "6000::/3",
    "8000::/3", "a000::/3", "c000::/3", "e000::/4", "f000::/5", "f800::/6",
    "fe00::/9"].map String.toList

/-! ## The filter -/

/-- `v4_blocked_python`. -/
def v4BlockedPython (ip : BitVec 32) : Bool :=
  let isPrivate := V4_PRIVATE.any (inV4 ip) && !V4_PRIVATE_EXCEPTIONS.any (inV4 ip)
  let reserved := inV4 ip "240.0.0.0/4".toList
  let multicast := inV4 ip "224.0.0.0/4".toList
  let linkLocal := inV4 ip "169.254.0.0/16".toList
  let loopback := inV4 ip "127.0.0.0/8".toList
  let unspecified := ip == 0
  loopback || linkLocal || isPrivate || reserved || multicast || unspecified

/-- The rule for an address. -/
def blocked : Addr → Bool
  | .v4 n => v4BlockedPython n || inV4 n "100.64.0.0/10".toList
  | .v6 n =>
      -- a mapped address follows its IPv4 rules, the shared range excepted
      if n >>> 32 = 0xFFFF#128 then v4BlockedPython ((n &&& 0xFFFFFFFF#128).setWidth 32)
      else
        let isPrivate := V6_PRIVATE.any (inV6 n) && !V6_PRIVATE_EXCEPTIONS.any (inV6 n)
        let reserved := V6_RESERVED.any (inV6 n)
        let multicast := inV6 n "ff00::/8".toList
        let linkLocal := inV6 n "fe80::/10".toList
        n == 1 || linkLocal || isPrivate || reserved || multicast || n == 0

/-- `is_blocked_ip`: an unreadable address is refused. -/
def isBlockedIp (text : List Char) : Bool :=
  match parse text with
  | none => true
  | some ip => blocked ip

/-! ## The IPv6 forms of an IPv4 address -/

/-- `::ffff:a`. -/
def mapped (a : BitVec 32) : BitVec 128 := BitVec.ofNat 128 (0xFFFF * 2 ^ 32 + a.toNat)

/-- `::a`. -/
def compatible (a : BitVec 32) : BitVec 128 := BitVec.ofNat 128 a.toNat

/-- `2002:a::x`. -/
def sixToFour (a : BitVec 32) (x : BitVec 80) : BitVec 128 :=
  BitVec.ofNat 128 (0x2002 * 2 ^ 112 + a.toNat * 2 ^ 80 + x.toNat)

/-- `64:ff9b::a`. -/
def nat64 (a : BitVec 32) : BitVec 128 := BitVec.ofNat 128 (0x64FF9B * 2 ^ 96 + a.toNat)

variable {a : BitVec 32} {n : BitVec 128}

theorem toNat_ofNat {k : Nat} (h : k < 2 ^ 128) : (BitVec.ofNat 128 k).toNat = k := by
  rw [BitVec.toNat_ofNat, Nat.mod_eq_of_lt h]

theorem toNat_mapped (a : BitVec 32) : (mapped a).toNat = 0xFFFF * 2 ^ 32 + a.toNat := by
  have ha := a.isLt
  exact toNat_ofNat (by omega)

theorem toNat_compatible (a : BitVec 32) : (compatible a).toNat = a.toNat := by
  have ha := a.isLt
  exact toNat_ofNat (by omega)

theorem toNat_sixToFour (a : BitVec 32) (x : BitVec 80) :
    (sixToFour a x).toNat = 0x2002 * 2 ^ 112 + a.toNat * 2 ^ 80 + x.toNat := by
  have ha := a.isLt
  have hx := x.isLt
  exact toNat_ofNat (by omega)

theorem toNat_nat64 (a : BitVec 32) : (nat64 a).toNat = 0x64FF9B * 2 ^ 96 + a.toNat := by
  have ha := a.isLt
  exact toNat_ofNat (by omega)

theorem isMapped_iff : n >>> 32 = 0xFFFF#128 ↔ n.toNat / 2 ^ 32 = 0xFFFF := by
  rw [← BitVec.toNat_inj, BitVec.toNat_ushiftRight, Nat.shiftRight_eq_div_pow]
  rfl

/-- The mapped form follows the rules of the address but for the shared range. -/
theorem blocked_mapped (a : BitVec 32) : blocked (.v6 (mapped a)) = v4BlockedPython a := by
  have hmapped : mapped a >>> 32 = 0xFFFF#128 := by
    have ha := a.isLt
    rw [isMapped_iff, toNat_mapped]
    omega
  have hlow : (mapped a &&& 0xFFFFFFFF#128).setWidth 32 = a := by
    have ha := a.isLt
    have hmask : (0xFFFFFFFF#128).toNat = 2 ^ 32 - 1 := rfl
    rw [← BitVec.toNat_inj, BitVec.toNat_setWidth, BitVec.toNat_and, toNat_mapped, hmask,
      Nat.and_two_pow_sub_one_eq_mod]
    omega
  rw [blocked, if_pos hmapped, hlow]

/-! ## Networks that are refused -/

theorem not_excepted (h : n.toNat / 2 ^ 112 ≠ 0x2001) : V6_PRIVATE_EXCEPTIONS.any (inV6 n) = false := by
  have hall : V6_PRIVATE_EXCEPTIONS.all (fun e => decide ((netV6 e).base.toNat / 2 ^ 112 = 0x2001 ∧
      16 ≤ (netV6 e).len ∧ (netV6 e).len ≤ 128)) = true := by decide +kernel
  rw [List.any_eq_false]
  intro e he hhas
  obtain ⟨hbase, hlo, hhi⟩ := of_decide_eq_true (List.all_eq_true.1 hall e he)
  have htop := Net.has_mono hhas hlo hhi
  exact h (htop.trans hbase)

variable {net : List Char}

theorem blocked_of_private (hmapped : n.toNat / 2 ^ 32 ≠ 0xFFFF) (htop : n.toNat / 2 ^ 112 ≠ 0x2001)
    (hnet : net ∈ V6_PRIVATE) (h : inV6 n net = true) :
    blocked (.v6 n) = true := by
  have hany : V6_PRIVATE.any (inV6 n) = true := List.any_eq_true.2 ⟨net, hnet, h⟩
  rw [blocked, if_neg (mt isMapped_iff.1 hmapped)]
  simp [hany, not_excepted htop]

theorem blocked_of_reserved (hmapped : n.toNat / 2 ^ 32 ≠ 0xFFFF)
    (hnet : net ∈ V6_RESERVED) (h : inV6 n net = true) : blocked (.v6 n) = true := by
  have hany : V6_RESERVED.any (inV6 n) = true := List.any_eq_true.2 ⟨net, hnet, h⟩
  rw [blocked, if_neg (mt isMapped_iff.1 hmapped)]
  simp [hany]

theorem inV6_iff (s top : Nat) (h : 128 - (netV6 net).len = s ∧ (netV6 net).base.toNat / 2 ^ s = top) :
    inV6 n net = true ↔ n.toNat / 2 ^ s = top := by
  rw [inV6, Net.has_iff, h.1, h.2]

theorem inV4_iff (s top : Nat) (h : 32 - (netV4 net).len = s ∧ (netV4 net).base.toNat / 2 ^ s = top) :
    inV4 a net = true ↔ a.toNat / 2 ^ s = top := by
  rw [inV4, Net.has_iff, h.1, h.2]

/-- A network of IPv6, the number of its other bits, and its leading bits. -/
def LEADING : List (List Char × Nat × Nat) :=
  [("::/8".toList, 120, 0), ("::1/128".toList, 0, 1), ("2002::/16".toList, 112, 0x2002),
    ("fe80::/10".toList, 118, 0x3FA), ("fc00::/7".toList, 121, 0x7E), ("ff00::/8".toList, 120, 0xFF)]

theorem inV6_leading {s top : Nat} (h : (net, s, top) ∈ LEADING) :
    inV6 n net = true ↔ n.toNat / 2 ^ s = top := by
  have hall : ∀ x ∈ LEADING, 128 - (netV6 x.1).len = x.2.1 ∧ (netV6 x.1).base.toNat / 2 ^ x.2.1 = x.2.2 := by
    decide +kernel
  exact inV6_iff s top (hall (net, s, top) h)

theorem inV6_zero : inV6 n "::/8".toList = true ↔ n.toNat / 2 ^ 120 = 0 :=
  inV6_leading (by simp [LEADING])

theorem inV6_one : inV6 n "::1/128".toList = true ↔ n.toNat / 2 ^ 0 = 1 :=
  inV6_leading (by simp [LEADING])

theorem inV6_sixToFour : inV6 n "2002::/16".toList = true ↔ n.toNat / 2 ^ 112 = 0x2002 :=
  inV6_leading (by simp [LEADING])

theorem inV6_linkLocal : inV6 n "fe80::/10".toList = true ↔ n.toNat / 2 ^ 118 = 0x3FA :=
  inV6_leading (by simp [LEADING])

theorem inV6_uniqueLocal : inV6 n "fc00::/7".toList = true ↔ n.toNat / 2 ^ 121 = 0x7E :=
  inV6_leading (by simp [LEADING])

theorem inV6_multicast : inV6 n "ff00::/8".toList = true ↔ n.toNat / 2 ^ 120 = 0xFF :=
  inV6_leading (by simp [LEADING])

/-- The compatible form, the 6to4 forms and the NAT64 form lie in refused networks, whatever the
address they carry. -/
theorem blocked_of_embedding
    (h : n = compatible a ∨ (∃ x, n = sixToFour a x) ∨ n = nat64 a) : blocked (.v6 n) = true := by
  have ha := a.isLt
  rcases h with rfl | ⟨x, rfl⟩ | rfl
  · have hn := toNat_compatible a
    exact blocked_of_reserved (by omega) (by decide) (inV6_zero.2 (by omega))
  · have hx := x.isLt
    have hn := toNat_sixToFour a x
    exact blocked_of_private (by omega) (by omega) (by decide) (inV6_sixToFour.2 (by omega))
  · have hn := toNat_nat64 a
    exact blocked_of_reserved (by omega) (by decide) (inV6_zero.2 (by omega))

/-- The loopback address and the link-local, unique-local and multicast networks. -/
def Internal (n : BitVec 128) : Prop :=
  n = 1 ∨ inV6 n "fe80::/10".toList = true ∨ inV6 n "fc00::/7".toList = true ∨
    inV6 n "ff00::/8".toList = true

theorem blocked_of_internal (h : Internal n) : blocked (.v6 n) = true := by
  rcases h with rfl | hlink | hunique | hmulticast
  · have hone : (1 : BitVec 128).toNat = 1 := rfl
    exact blocked_of_private (by omega) (by omega) (by decide) (inV6_one.2 (by omega))
  · have htop := inV6_linkLocal.1 hlink
    exact blocked_of_private (by omega) (by omega) (by decide) hlink
  · have htop := inV6_uniqueLocal.1 hunique
    exact blocked_of_private (by omega) (by omega) (by decide) hunique
  · have htop := inV6_multicast.1 hmulticast
    have hmapped : n.toNat / 2 ^ 32 ≠ 0xFFFF := by omega
    rw [blocked, if_neg (mt isMapped_iff.1 hmapped)]
    dsimp only
    rw [hmulticast, Bool.or_true, Bool.true_or]

/-! ## The shared range -/

def SHARED : List Char := "100.64.0.0/10".toList

theorem inV4_shared : inV4 a SHARED = true ↔ a.toNat / 2 ^ 22 = 401 :=
  inV4_iff 22 401 (by decide +kernel)

/-- A network whose first bits are not those of the shared range. -/
def apart (net : List Char) : Bool :=
  decide ((netV4 net).len ≤ 32) &&
    (decide (8 ≤ (netV4 net).len ∧ (netV4 net).base.toNat / 2 ^ 24 ≠ 100) ||
      decide (4 ≤ (netV4 net).len ∧ (netV4 net).base.toNat / 2 ^ 28 ≠ 6))

theorem not_inV4_of_apart (hnet : apart net = true) (h : inV4 a SHARED = true) : inV4 a net = false := by
  have hshared := inV4_shared.1 h
  simp only [apart, Bool.and_eq_true, Bool.or_eq_true, decide_eq_true_eq] at hnet
  obtain ⟨hlen, htop⟩ := hnet
  rw [Bool.eq_false_iff]
  intro hhas
  rcases htop with ⟨hlo, hbase⟩ | ⟨hlo, hbase⟩
  · have hsame : a.toNat / 2 ^ 24 = _ := Net.has_mono hhas hlo hlen
    exact hbase (hsame.symm.trans (by omega))
  · have hsame : a.toNat / 2 ^ 28 = _ := Net.has_mono hhas hlo hlen
    exact hbase (hsame.symm.trans (by omega))

theorem not_python_of_shared (h : inV4 a SHARED = true) : v4BlockedPython a = false := by
  have hapart : ∀ net ∈ "224.0.0.0/4".toList :: V4_PRIVATE, inV4 a net = false := by
    have hall : ("224.0.0.0/4".toList :: V4_PRIVATE).all apart = true := by decide +kernel
    exact fun net hnet => not_inV4_of_apart (List.all_eq_true.1 hall net hnet) h
  have hprivate : V4_PRIVATE.any (inV4 a) = false := by
    rw [List.any_eq_false]
    intro net hnet
    rw [hapart net (List.mem_cons_of_mem _ hnet)]
    exact Bool.false_ne_true
  have hzero : (a == 0) = false := by
    rw [beq_eq_false_iff_ne]
    rintro rfl
    have hshared := inV4_shared.1 h
    exact absurd hshared (by decide)
  rw [v4BlockedPython, hprivate, hzero, hapart "240.0.0.0/4".toList (by simp [V4_PRIVATE]),
    hapart "224.0.0.0/4".toList List.mem_cons_self, hapart "169.254.0.0/16".toList (by simp [V4_PRIVATE]),
    hapart "127.0.0.0/8".toList (by simp [V4_PRIVATE])]
  rfl

theorem isBlockedIp_parse {t : List Char} {ip : Addr} (h : parse t = some ip) : isBlockedIp t = blocked ip := by
  rw [isBlockedIp, h]

/-- An IPv4 address that is refused is refused in its IPv6 forms: the compatible form, the 6to4
forms and the NAT64 form always, the mapped form unless the address is in the shared range.
The internal networks of IPv6 are refused. -/
theorem address_filter :
    (∀ t a, parse t = some (.v4 a) → isBlockedIp t = true → ∀ t' n, parse t' = some (.v6 n) →
      (n = mapped a → (isBlockedIp t' = true ↔ inV4 a SHARED = false)) ∧
        (n = compatible a ∨ (∃ x, n = sixToFour a x) ∨ n = nat64 a → isBlockedIp t' = true)) ∧
      ∀ t n, parse t = some (.v6 n) → Internal n → isBlockedIp t = true := by
  constructor
  · intro t a ht hblocked t' n ht'
    rw [isBlockedIp_parse ht] at hblocked
    rw [isBlockedIp_parse ht']
    refine ⟨?_, blocked_of_embedding⟩
    rintro rfl
    rw [blocked_mapped]
    constructor
    · intro hpython
      rw [Bool.eq_false_iff]
      intro hshared
      rw [not_python_of_shared hshared] at hpython
      cases hpython
    · intro hshared
      have hcases : (v4BlockedPython a || inV4 a SHARED) = true := hblocked
      simpa [hshared] using hcases
  · intro t n ht hinternal
    rw [isBlockedIp_parse ht]
    exact blocked_of_internal hinternal

/-- The loopback address, mapped and in the 6to4 network. -/
theorem address_filter_loopback :
    isBlockedIp "::ffff:127.0.0.1".toList = true ∧ isBlockedIp "2002:7f00:1::9".toList = true ∧
      isBlockedIp "fe80::1".toList = true := by
  have hparse : parse "127.0.0.1".toList = some (.v4 0x7F000001#32) ∧
      parse "::ffff:127.0.0.1".toList = some (.v6 (mapped 0x7F000001#32)) ∧
      parse "2002:7f00:1::9".toList = some (.v6 (sixToFour 0x7F000001#32 9)) ∧
      parse "fe80::1".toList = some (.v6 0xFE800000000000000000000000000001#128) ∧
      isBlockedIp "127.0.0.1".toList = true ∧ inV4 0x7F000001#32 SHARED = false ∧
      inV6 0xFE800000000000000000000000000001#128 "fe80::/10".toList = true := by
    decide +kernel
  obtain ⟨hloopback, hmapped, hsix, hlink, hblocked, hshared, hnet⟩ := hparse
  have hforms := address_filter.1 _ _ hloopback hblocked
  exact ⟨((hforms _ _ hmapped).1 rfl).2 hshared, (hforms _ _ hsix).2 (.inr (.inl ⟨9, rfl⟩)),
    address_filter.2 _ _ hlink (.inr (.inl hnet))⟩

/-- An address of the shared range is refused, its mapped form is not. -/
theorem shared_mapped_passes : isBlockedIp "100.64.0.1".toList = true ∧
      parse "100.64.0.1".toList = some (.v4 0x64400001#32) ∧
      parse "::ffff:100.64.0.1".toList = some (.v6 (mapped 0x64400001#32)) ∧
      isBlockedIp "::ffff:100.64.0.1".toList = false := by
  decide +kernel

end Portal.AddressFilter
