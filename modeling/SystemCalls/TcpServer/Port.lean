import SystemCalls.Atoi

/-!
# The port of tcp_server and tcp_client

From the command line to the port that the server prints, the one its socket is bound to and the
one the client connects to.
-/

namespace SystemCalls.TcpServer

abbrev DEFAULT_PORT : ℤ := 8080

/-- Swaps the two bytes, on a little-endian machine. -/
def htons (x : BitVec 16) : BitVec 16 := x.extractLsb' 0 8 ++ x.extractLsb' 8 8

def ntohs (x : BitVec 16) : BitVec 16 := htons x

/-- `int port` in `main`, where the argument `i` is the one with the port. -/
def port (i : ℕ) (argv : List (List UInt8)) : ℤ :=
  match argv[i]? with
  | some arg => atoi arg
  | none => DEFAULT_PORT

/-- `server_addr.sin_port`: `htons` takes the low 16 bits of the `int`. -/
def sin_port (port : ℤ) : BitVec 16 := htons (BitVec.ofInt 16 port)

/-- A port that `bind` may choose on its own. -/
structure Ephemeral where
  port : BitVec 16
  ne_zero : port ≠ 0

/-- The local port after a `bind` that has succeeded. -/
def bind (sin_port : BitVec 16) (free : Ephemeral) : BitVec 16 :=
  if ntohs sin_port = 0 then free.port else ntohs sin_port

/-- The port in "Bound to port %d". -/
def announced (argv : List (List UInt8)) : ℤ := port 1 argv

def bound (argv : List (List UInt8)) (free : Ephemeral) : BitVec 16 :=
  bind (sin_port (port 1 argv)) free

/-- The port of the client's `connect`. -/
def connected (argv : List (List UInt8)) : BitVec 16 := ntohs (sin_port (port 2 argv))

/-- With the same string for the port, server and client name the port that is bound. -/
def Agree (arg : List UInt8) (free : Ephemeral) : Prop :=
  ∀ server client host,
    announced [server, arg] = (bound [server, arg] free).toNat ∧
      connected [client, host, arg] = bound [server, arg] free

/-- The integer that the argument starts with fits in a `long` and leaves a port modulo 2^32. -/
def NamesPort (arg : List UInt8) : Prop :=
  LONG_MIN ≤ decimal arg ∧ decimal arg ≤ LONG_MAX ∧
    1 ≤ decimal arg % 2 ^ 32 ∧ decimal arg % 2 ^ 32 ≤ 65535

variable {arg : List UInt8} {free : Ephemeral} {p : ℤ} {n : ℕ}

theorem ntohs_htons (x : BitVec 16) : ntohs (htons x) = x := by
  apply BitVec.eq_of_getLsbD_eq
  intro i hi
  simp only [ntohs, htons, BitVec.getLsbD_append, BitVec.getLsbD_extractLsb']
  by_cases h : i < 8
  · simp [h]
  · have hlow : i - 8 < 8 := by omega
    have hindex : 8 + (i - 8) = i := by omega
    simp [h, hlow, hindex]

/-- The low 16 bits of the `int` arrive. -/
theorem toNat_ntohs_sin_port (p : ℤ) : ((ntohs (sin_port p)).toNat : ℤ) = p % 65536 := by
  rw [sin_port, ntohs_htons, BitVec.toNat_ofInt]
  omega

theorem toNat_bind (p : ℤ) (free : Ephemeral) : ((bind (sin_port p) free).toNat : ℤ) =
    if p % 65536 = 0 then (free.port.toNat : ℤ) else p % 65536 := by
  have hport := toNat_ntohs_sin_port p
  have hzero : ntohs (sin_port p) = 0 ↔ p % 65536 = 0 := by
    rw [← hport, ← BitVec.toNat_inj]
    simp
  unfold bind
  by_cases h : p % 65536 = 0
  · rw [if_pos (hzero.mpr h), if_pos h]
  · rw [if_neg (mt hzero.mp h), if_neg h, hport]

/-- Only a number that is a port comes out unchanged. -/
theorem eq_bind_iff (p : ℤ) (free : Ephemeral) :
    p = (bind (sin_port p) free).toNat ↔ 1 ≤ p ∧ p ≤ 65535 := by
  have hpos : 0 < free.port.toNat :=
    Nat.pos_of_ne_zero fun h => free.ne_zero (BitVec.eq_of_toNat_eq h)
  have hlt : free.port.toNat < 65536 := free.port.isLt
  rw [toNat_bind]
  split <;> omega

/-- The client takes the same 16 bits. -/
theorem ntohs_eq_bind (h : p % 65536 ≠ 0) : ntohs (sin_port p) = bind (sin_port p) free := by
  apply BitVec.eq_of_toNat_eq
  have hbind := toNat_bind p free
  rw [if_neg h, ← toNat_ntohs_sin_port] at hbind
  exact (Int.natCast_inj.mp hbind).symm

theorem agree_iff_atoi (arg : List UInt8) (free : Ephemeral) :
    Agree arg free ↔ 1 ≤ atoi arg ∧ atoi arg ≤ 65535 := by
  constructor
  · intro h
    exact (eq_bind_iff _ free).mp (h [] [] []).1
  · rintro ⟨hmin, hmax⟩ server client host
    exact ⟨(eq_bind_iff _ free).mpr ⟨hmin, hmax⟩, ntohs_eq_bind (p := atoi arg) (by omega)⟩

theorem atoi_isPort_iff (arg : List UInt8) :
    1 ≤ atoi arg ∧ atoi arg ≤ 65535 ↔ NamesPort arg := by
  constructor
  · rintro ⟨hmin, hmax⟩
    obtain ⟨n, hn⟩ := Int.eq_ofNat_of_zero_le (Int.le_trans (by decide) hmin)
    obtain ⟨hlo, hhi, hmod⟩ := (atoi_eq_iff (by omega) (by omega)).mp hn
    exact ⟨hlo, hhi, by omega, by omega⟩
  · rintro ⟨hlo, hhi, hmin, hmax⟩
    obtain ⟨n, hn⟩ := Int.eq_ofNat_of_zero_le (Int.le_trans (by decide) hmin)
    have hatoi := (atoi_eq_iff (by omega) (by omega)).mpr ⟨hlo, hhi, hn⟩
    omega

/-- The server is where it says, and the client goes there, exactly for arguments that name a
port. -/
theorem agree_iff (arg : List UInt8) (free : Ephemeral) :
    Agree arg free ↔ NamesPort arg :=
  (agree_iff_atoi arg free).trans (atoi_isPort_iff arg)

/-- Without arguments both use 8080. -/
theorem agree_default (server client : List UInt8) (free : Ephemeral) :
    announced [server] = (bound [server] free).toNat ∧ connected [client] = bound [server] free :=
  ⟨(eq_bind_iff DEFAULT_PORT free).mpr (by decide),
    ntohs_eq_bind (p := DEFAULT_PORT) (by decide)⟩

/-- Among the arguments are all the ports written as `%d` writes them. -/
theorem namesPort_digitBytes (h : 1 ≤ n) (hn : n ≤ 65535) :
    NamesPort (digitBytes (Nat.digits 10 n)) := by
  rw [NamesPort, decimal_digitBytes]
  simp only [LONG_MIN, LONG_MAX]
  omega

/-- "70000" -/
def tooLarge : List UInt8 := [55, 48, 48, 48, 48]

/-- The server says 70000 and listens on 4464. -/
theorem not_agree_tooLarge : ¬ ∀ arg free, Agree arg free := by
  intro hall
  have h := (agree_iff_atoi tooLarge ⟨32768, by decide⟩).mp (hall _ _)
  exact absurd h.2 (by decide)

end SystemCalls.TcpServer
