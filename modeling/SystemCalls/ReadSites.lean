import SystemCalls.TcpClient.Client

/-!
# Texts that are read and printed

Seven places of the example programs read into a `char` array and print it with `%s`.
Most check the result and store a NUL after the bytes. One stores it unchecked, and
two print the array as the call left it.
-/

namespace SystemCalls.ReadSites

/-- What `read` or `recv` may do when asked for `request` bytes: fail, or deliver some. -/
inductive ReadResult (request : ℕ)
  | error
  | delivered (data : List UInt8) (h : data.length ≤ request)

namespace ReadResult

variable {request : ℕ}

def data : ReadResult request → List UInt8
  | error => []
  | delivered data _ => data

/-- The value returned. -/
def count : ReadResult request → ℤ
  | error => -1
  | delivered data _ => data.length

theorem length_data_le (r : ReadResult request) : r.data.length ≤ request := by
  cases r with
  | error => exact Nat.zero_le _
  | delivered data h => exact h

end ReadResult

/-- The indices at which a NUL is stored, and the array that `%s` gets, if any. -/
structure Outcome (size : ℕ) where
  stores : List ℤ
  printed : Option (CharBuf size)

/-- `buf[i] = '\0'`, which leaves the array alone when `i` is no index of it. -/
def putNul {size : ℕ} (buf : CharBuf size) (i : ℤ) : CharBuf size :=
  if h : 0 ≤ i ∧ i < size then buf.set ⟨i.toNat, by omega⟩ 0 else buf

/-- The array after the call. -/
def fill {size request : ℕ} (buf : CharBuf size) (r : ReadResult request) (h : request ≤ size) :
    CharBuf size :=
  buf.write r.data (r.length_data_le.trans h)

/-- Only a positive count is terminated and printed. -/
def guarded (size request : ℕ) (h : request ≤ size) (buf : CharBuf size)
    (r : ReadResult request) : Outcome size :=
  if 0 < r.count then ⟨[r.count], some (putNul (fill buf r h) r.count)⟩ else ⟨[], none⟩

/-- `file_operations`, `read(fd, read_buf, sizeof(read_buf) - 1)` -/
def fileRead : CharBuf 1024 → ReadResult 1023 → Outcome 1024 :=
  guarded 1024 1023 (by decide)

/-- `file_operations`, `read(fd, read_buf, 20)` after `lseek`: nothing is checked. -/
def fileSeekRead (buf : CharBuf 1024) (r : ReadResult 20) : Outcome 1024 :=
  ⟨[r.count], some (putNul (fill buf r (by decide)) r.count)⟩

/-- `simple_pipe_demo`, the child -/
def simplePipe : CharBuf 100 → ReadResult 99 → Outcome 100 :=
  guarded 100 99 (by decide)

/-- `bidirectional_pipe_demo`, both processes: all of `msg` is asked for, and it is printed
as it stands. -/
def bidirectionalPipe (buf : CharBuf 100) (r : ReadResult 100) : Outcome 100 :=
  ⟨[], some (fill buf r (by decide))⟩

def tcpServer : CharBuf 1024 → ReadResult 1023 → Outcome 1024 :=
  guarded 1024 1023 (by decide)

def tcpClient : CharBuf 1024 → ReadResult 1023 → Outcome 1024 :=
  guarded 1024 1023 (by decide)

/-- The places, in the order of the programs. -/
inductive Site
  | fileRead
  | fileSeekRead
  | simplePipe
  | bidirectionalChild
  | bidirectionalParent
  | tcpServer
  | tcpClient
  deriving DecidableEq

namespace Site

/-- The size of the array. -/
def size : Site → ℕ
  | fileRead | fileSeekRead | tcpServer | tcpClient => 1024
  | simplePipe | bidirectionalChild | bidirectionalParent => 100

/-- The number of bytes asked for. -/
def request : Site → ℕ
  | fileRead | tcpServer | tcpClient => 1023
  | fileSeekRead => 20
  | simplePipe => 99
  | bidirectionalChild | bidirectionalParent => 100

def run : (p : Site) → CharBuf p.size → ReadResult p.request → Outcome p.size
  | fileRead => ReadSites.fileRead
  | fileSeekRead => ReadSites.fileSeekRead
  | simplePipe => ReadSites.simplePipe
  | bidirectionalChild | bidirectionalParent => bidirectionalPipe
  | tcpServer => ReadSites.tcpServer
  | tcpClient => ReadSites.tcpClient

/-- What the place takes for granted about the result of the call. -/
def Expects : (p : Site) → ReadResult p.request → Prop
  | fileSeekRead, r => r.count ≠ -1
  | bidirectionalChild, r | bidirectionalParent, r => 0 ∈ r.data
  | fileRead, _ | simplePipe, _ | tcpServer, _ | tcpClient, _ => True

end Site

/-- NULs are stored inside the array. `%s` finds a NUL inside the array, and every byte up
to it was delivered by the call or is a NUL stored after it. -/
def Safe {size request : ℕ} (r : ReadResult request) (o : Outcome size) : Prop :=
  (∀ i ∈ o.stores, 0 ≤ i ∧ i < size) ∧
  ∀ buf, o.printed = some buf → (cstr buf.bytes).length < size ∧
    ∀ i : ℕ, i ≤ (cstr buf.bytes).length → i < r.data.length ∨ (i : ℤ) ∈ o.stores

variable {size request : ℕ} {buf : CharBuf size}

theorem putNul_fill {data : List UInt8} {hd : data.length ≤ request} (h : request < size) :
    putNul (fill buf (.delivered data hd) h.le) data.length =
      buf.terminated data (hd.trans_lt h) := by
  rw [putNul, dif_pos (by omega)]
  rfl

/-- A NUL right after the bytes delivered makes the print safe. -/
theorem safe_terminated {data : List UInt8} {hd : data.length ≤ request} (h : request < size) :
    Safe (.delivered data hd)
      ⟨[(data.length : ℤ)], some (putNul (fill buf (.delivered data hd) h.le) data.length)⟩ := by
  constructor
  · intro i hi
    obtain rfl : i = data.length := by simpa using hi
    omega
  · rintro _ ⟨rfl⟩
    rw [putNul_fill h, CharBuf.cstr_terminated]
    have hle := length_cstr_le data
    refine ⟨by omega, ?_⟩
    intro i hi
    by_cases hlt : i < data.length
    · exact Or.inl hlt
    · obtain rfl : i = data.length := by omega
      exact Or.inr (by simp)

theorem printed_guarded (h : request < size) {data : List UInt8} {hd : data.length ≤ request}
    (hne : data ≠ []) : (guarded size request h.le buf (.delivered data hd)).printed =
      some (buf.terminated data (hd.trans_lt h)) := by
  have hpos : (0 : ℤ) < data.length := by exact_mod_cast List.length_pos_iff.mpr hne
  rw [guarded, ReadResult.count, if_pos hpos, putNul_fill h]

/-- The server prints what its model has in the buffer after the call. -/
theorem tcpServer_printed (s : TcpServer.State) (c : Socket.Chunk TcpServer.maxRead) :
    (tcpServer s.buffer (.delivered c.bytes c.length_le)).printed =
      some (TcpServer.onRecv s (.data c)).buffer :=
  printed_guarded (by decide) c.ne_nil

theorem tcpClient_printed (s : TcpClient.State) (c : Socket.Chunk TcpClient.maxRead) :
    (tcpClient s.buffer (.delivered c.bytes c.length_le)).printed =
      some (TcpClient.onRecv s (.data c)).buffer :=
  printed_guarded (by decide) c.ne_nil

theorem safe_guarded (h : request < size) (r : ReadResult request) :
    Safe r (guarded size request h.le buf r) := by
  unfold guarded
  split
  next hpos =>
    cases r with
    | error => simp [ReadResult.count] at hpos
    | delivered data hd => exact safe_terminated h
  next => exact ⟨by simp, by simp⟩

theorem safe_fileSeekRead_iff {buf : CharBuf 1024} {r : ReadResult 20} :
    Safe r (fileSeekRead buf r) ↔ r.count ≠ -1 := by
  cases r with
  | error =>
    constructor
    · intro h
      have hindex := h.1 (-1) (by simp [fileSeekRead, ReadResult.count])
      omega
    · intro h
      exact (h rfl).elim
  | delivered data hd =>
    constructor
    · intro _
      simp only [ReadResult.count]
      omega
    · intro _
      exact safe_terminated (by decide)

/-- The string in an array ends within the bytes delivered just when they have a NUL. -/
theorem length_cstr_append_lt_iff {data : List UInt8} (rest : List UInt8) :
    (cstr (data ++ rest)).length < data.length ↔ 0 ∈ data := by
  induction data with
  | nil => simp
  | cons c data ih =>
    by_cases hc : c = 0
    · simp [cstr, hc]
    · simpa [cstr, hc, Ne.symm hc] using ih

theorem safe_bidirectionalPipe_iff {buf : CharBuf 100} {r : ReadResult 100} :
    Safe r (bidirectionalPipe buf r) ↔ 0 ∈ r.data := by
  rw [← length_cstr_append_lt_iff (buf.bytes.drop r.data.length)]
  constructor
  · intro h
    rcases (h.2 _ rfl).2 _ (Nat.le_refl _) with hread | hread
    · exact hread
    · simp [bidirectionalPipe] at hread
  · intro h
    refine ⟨by simp [bidirectionalPipe], ?_⟩
    rintro _ ⟨rfl⟩
    have hle := r.length_data_le
    refine ⟨Nat.lt_of_lt_of_le h hle, ?_⟩
    intro i hi
    exact Or.inl (Nat.lt_of_le_of_lt hi h)

/-- A place is safe exactly for the results it expects. -/
theorem read_site_safe_iff (p : Site) (buf : CharBuf p.size) (r : ReadResult p.request) :
    Safe r (p.run buf r) ↔ p.Expects r := by
  cases p with
  | fileRead | simplePipe | tcpServer | tcpClient =>
    exact iff_of_true (safe_guarded (by decide) r) trivial
  | fileSeekRead => exact safe_fileSeekRead_iff
  | bidirectionalChild | bidirectionalParent => exact safe_bidirectionalPipe_iff

/-- A failing `read` after `lseek` stores at index -1, and a child whose `read` finds the
pipe closed prints whatever `msg` held. -/
theorem unsafe_at_error_and_end_of_file :
    ((fileSeekRead (.zero 1024) .error).stores = [-1] ∧
      ¬ Safe (.error : ReadResult 20) (Site.fileSeekRead.run (.zero 1024) .error)) ∧
    ∀ buf, ¬ Safe (.delivered [] (Nat.zero_le 100))
      (Site.bidirectionalChild.run buf (.delivered [] (Nat.zero_le 100))) := by
  refine ⟨⟨rfl, ?_⟩, ?_⟩
  · exact fun h => safe_fileSeekRead_iff.mp h rfl
  · intro buf h
    have hmem := safe_bidirectionalPipe_iff.mp h
    simp [ReadResult.data] at hmem

end SystemCalls.ReadSites
