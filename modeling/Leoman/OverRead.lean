import Leoman.EitherOrder

namespace Leoman

open ByteMem StateExcept Runs

/-!
# Whose length is copied

All three copies take the length of the side that receives: `send_len` says how many pages a `recv`
maps, and nothing else.  A receiving buffer longer than the message gets the bytes behind it.

* `Exchange.withheldRequest`, `Exchange.withheldResponse` — the bytes of the sender that are not in
  its message;
* `Exchange.NoOverRead` — two runs that differ in such bytes end with the same memory on the
  receiving side;
* `no_over_read` — so it is where no buffer received into is longer than the message, and nowhere
  else;
* `longer_buffer_leaks` — a message of one byte into a buffer of two.
-/

/-! ### Pairs of runs -/

/-- The user memory of an address space. -/
def memoryOf (K : Set (BitVec 32)) (mem : Mem) (D : BitVec 32) : Set (BitVec 32) :=
  {y | palignDown y ∉ K ∧ ∃ v, hwTranslate mem D v = some y}

/-- `k'` is `k` but for bytes in `X`. -/
def Perturbed (X : Set (BitVec 32)) (k k' : Kernel Unit) : Prop :=
  ∃ mem, k' = { k with mach := { k.mach with mem := mem } } ∧ ∀ y, y ∉ X → mem y = k.mach.mem y

/-- Equal words have equal halves. -/
theorem append_inj {w w' : Nat} {a a' : BitVec w} {b b' : BitVec w'} (h : a ++ b = a' ++ b') :
    a = a' ∧ b = b' := by
  constructor
  · have := congrArg (fun x => x.extractLsb' w' w) h
    simpa only [BitVec.extractLsb'_append_eq_left] using this
  · have := congrArg (fun x => x.extractLsb' 0 w') h
    simpa only [BitVec.extractLsb'_append_eq_right] using this

/-- Equal words have equal bytes. -/
theorem bytes_of_wordVia {mem mem' : Mem} {f : Nat → BitVec 32}
    (h : wordVia mem f 0 = wordVia mem' f 0) : ∀ i < 4, mem (f i) = mem' (f i) := by
  obtain ⟨h₁, h0⟩ := append_inj h
  obtain ⟨h₂, h1⟩ := append_inj h₁
  obtain ⟨h3, h2⟩ := append_inj h₂
  intro i hi
  obtain rfl | rfl | rfl | rfl : i = 0 ∨ i = 1 ∨ i = 2 ∨ i = 3 := by omega
  · exact h0
  · exact h1
  · exact h2
  · exact h3

namespace Exchange

/-- Who calls first. -/
inductive Order where
  | recvFirst
  | sendFirst

/-- The two calls in the order given. -/
def Order.Meets (o : Order) (x : Exchange) (k : Kernel Unit) (f₁ f₂ : BitVec 32)
    (Q : Kernel Unit → Prop) : Prop :=
  match o with
  | .recvFirst => Completes k x.server (syscallRecvMsg x.msgS f₁) fun k₁ =>
      Completes k₁ x.client (syscallSendMsg x.msgC f₂) Q
  | .sendFirst => Completes k x.client (syscallSendMsg x.msgC f₂) fun k₁ =>
      Completes k₁ x.server (syscallRecvMsg x.msgS f₁) Q

/-- The user memory of the client. -/
def clientMemory (x : Exchange) (K : Set (BitVec 32)) (k : Kernel Unit) : Set (BitVec 32) :=
  memoryOf K k.mach.mem (k.procs x.client).pdir

/-- The user memory of the server. -/
def serverMemory (x : Exchange) (K : Set (BitVec 32)) (k : Kernel Unit) : Set (BitVec 32) :=
  memoryOf K k.mach.mem (k.procs x.server).pdir

/-- The bytes of the client that are not in the request, nor in the packet that says where the
    request is. -/
def withheldRequest (x : Exchange) (K : Set (BitVec 32)) (k : Kernel Unit) : Set (BitVec 32) :=
  x.clientMemory K k \ (x.serverMemory K k ∪ bytesOf x.req (x.packetC k).sendLen.toNat ∪
    bytesOf x.pktC 36)

/-- The bytes of the server that are not in the response, nor in its packets. -/
def withheldResponse (x : Exchange) (K : Set (BitVec 32)) (k : Kernel Unit) : Set (BitVec 32) :=
  x.serverMemory K k \ (x.clientMemory K k ∪ bytesOf x.resp (x.packetR k).sendLen.toNat ∪
    (bytesOf x.pktS 36 ∪ bytesOf x.pktR 36))

/-- **No over-read.**  When the two have called, in either order, the memory of the server does not
    depend on what the client withheld; and after the reply, that of the client does not depend on
    what the server withheld. -/
structure NoOverRead (x : Exchange) (K : Set (BitVec 32)) (k : Kernel Unit) : Prop where
  request : ∀ k', Perturbed (x.withheldRequest K k) k k' → ∀ (o : Order) f₁ f₂,
    o.Meets x k f₁ f₂ fun k₂ => o.Meets x k' f₁ f₂ fun k₂' =>
      ∀ y ∈ x.serverMemory K k, k₂'.mach.mem y = k₂.mach.mem y
  response : ∀ k', Perturbed (x.withheldResponse K k) k k' → ∀ (o : Order) f₁ f₂ f₃,
    o.Meets x k f₁ f₂ fun k₂ => Completes k₂ x.server (syscallRplyMsg x.msgR f₃) fun k₃ =>
      o.Meets x k' f₁ f₂ fun k₂' => Completes k₂' x.server (syscallRplyMsg x.msgR f₃) fun k₃' =>
        ∀ y ∈ x.clientMemory K k, k₃'.mach.mem y = k₃.mach.mem y

/-- No buffer received into is longer than the message. -/
def Covered (x : Exchange) (k : Kernel Unit) : Prop :=
  (x.packetS k).recvLen.toNat ≤ (x.packetC k).sendLen.toNat ∧
    (x.packetC k).recvLen.toNat ≤ (x.packetR k).sendLen.toNat

/-- Two processes poised for the exchange, with buffers within pages, free windows, and cleared
    frames for their tables. -/
structure Arranged (x : Exchange) (K dirs : Set (BitVec 32)) (l r : Nat) (k : Kernel Unit) :
    Prop where
  poised : x.Poised K dirs l r k
  paged : x.Paged k
  closed : Closed dirs k.mach.mem {recvBufWindow, msgWindow, replyWindow}
  supply : Supply K dirs k.mach.mem 3 k.mach.pm

/-- Both of the two get to run, and what is behind a message is the sender's own, and on the page
    of the message. -/
structure Separate (x : Exchange) (K : Set (BitVec 32)) (k : Kernel Unit) : Prop where
  running : Running k
  client : k.idle ≠ some x.client
  server : k.idle ≠ some x.server
  req : ∀ i < (x.packetS k).recvLen.toNat, x.req i ∉ x.serverMemory K k
  resp : ∀ i < (x.packetC k).recvLen.toNat, x.resp i ∉ x.clientMemory K k
  page : (pageOffset (x.packetR k).sendBuf).toNat + (x.packetC k).recvLen.toNat ≤ 4096

section Pairs

variable {x : Exchange} {K dirs X : Set (BitVec 32)} {l r : Nat} {k k' k₂ k₂' k₃ k₃' : Kernel Unit}
  {o : Order} {f₁ f₂ f₃ y : BitVec 32} {P Q : Kernel Unit → Prop}

/-- A weaker post. -/
theorem Order.Meets.mono (h : o.Meets x k f₁ f₂ P) (hPQ : ∀ k₂, P k₂ → Q k₂) :
    o.Meets x k f₁ f₂ Q := by
  cases o with
  | recvFirst => exact Completes.mono h fun _ h₁ => h₁.mono hPQ
  | sendFirst => exact Completes.mono h fun _ h₁ => h₁.mono hPQ

/-! ### The second run -/

/-- Bytes of user memory outside the packets do not matter to the arrangement. -/
theorem Arranged.perturbed (h : x.Arranged K dirs l r k) (hp : Perturbed X k k')
    (hX : ∀ y ∈ X, palignDown y ∉ K) (hC : Disjoint (bytesOf x.pktC 36) X)
    (hS : Disjoint (bytesOf x.pktS 36) X) (hR : Disjoint (bytesOf x.pktR 36) X) :
    x.Arranged K dirs l r k' ∧ x.packetC k' = x.packetC k ∧ x.packetS k' = x.packetS k ∧
      x.packetR k' = x.packetR k := by
  obtain ⟨mem, rfl, hmem⟩ := hp
  obtain ⟨hr, hpg, hcl, hsu⟩ := h
  have hpkt : ∀ {f : Nat → BitVec 32}, Disjoint (bytesOf f 36) X →
      packetVia mem f = packetVia k.mach.mem f := fun {f} hd =>
    packetVia_congr fun i hi => hmem _ (Set.disjoint_left.mp hd ⟨i, hi, rfl⟩)
  have hpC := hpkt hC
  have hpS := hpkt hS
  have hpR := hpkt hR
  -- the address spaces are in `K`
  have hagree : ∀ y, palignDown y ∈ K → mem y = k.mach.mem y := fun y hy =>
    hmem y fun hyX => hX y hyX hy
  obtain ⟨hpaging, hsame⟩ := Paging.of_agree (m := { k.mach with cr3 := (k.procs x.client).pdir })
    ⟨hr.spaces, hsu, hr.clientDir⟩ hagree
  have hclient : ∀ {v : BitVec 32} {n : Nat} {f : Nat → BitVec 32},
      UserBuffer K k.mach.mem (k.procs x.client).pdir v n f →
      UserBuffer K mem (k.procs x.client).pdir v n f :=
    fun hb => hb.same hr.spaces hr.clientDir hsame
  have hserver : ∀ {v : BitVec 32} {n : Nat} {f : Nat → BitVec 32},
      UserBuffer K k.mach.mem (k.procs x.server).pdir v n f →
      UserBuffer K mem (k.procs x.server).pdir v n f :=
    fun hb => hb.same hr.spaces hr.serverDir hsame
  refine ⟨⟨⟨⟨hr.alive.named, hr.alive.idle, hr.alive.cr3⟩, hr.distinct, hr.clientReady,
    hr.serverReady, hr.empty, hr.heap, hr.clientDir, hr.serverDir, hpaging.spaces, ?_,
    hr.pktC.same hr.spaces hr.clientDir hsame, hserver hr.pktS,
    hr.pktR.same hr.spaces hr.serverDir hsame, ?_, ?_, ?_, ?_, ?_, ?_, ?_⟩, ?_, ?_, hpaging.supply⟩,
    hpC, hpS, hpR⟩
  · rw [packetC, hpC]
    exact hr.receiver
  · rw [packetC, hpC]
    exact hclient hr.req
  · rw [packetS, hpS]
    exact hserver hr.inb
  · rw [packetR, hpR]
    exact hr.resp.same hr.spaces hr.serverDir hsame
  · rw [packetC, hpC]
    exact hclient hr.ans
  · rw [packetS, hpS]
    exact hr.reqLen
  · rw [packetC, hpC]
    exact hr.respLen
  · rw [spans, packetC, hpC, packetS, hpS]
    exact hr.apart
  · refine ⟨hpg.pktC, hpg.pktS, hpg.pktR, ?_, ?_, ?_, ?_⟩
    · rw [packetC, hpC]
      exact hpg.req
    · rw [packetS, hpS]
      exact hpg.inb
    · rw [packetR, hpR]
      exact hpg.resp
    · rw [packetC, hpC]
      exact hpg.ans
  · intro E hE q hq
    exact (hr.spaces.walk_agree hagree hE q).trans (hcl E hE q hq)

/-- What a client withholds is user memory outside the packets. -/
theorem Arranged.withheldRequest (h : x.Arranged K dirs l r k) :
    (∀ y ∈ x.withheldRequest K k, palignDown y ∉ K) ∧
      Disjoint (bytesOf x.pktC 36) (x.withheldRequest K k) ∧
      Disjoint (bytesOf x.pktS 36) (x.withheldRequest K k) ∧
      Disjoint (bytesOf x.pktR 36) (x.withheldRequest K k) := by
  have hserver : ∀ {f : Nat → BitVec 32} {v : BitVec 32},
      UserBytes K k.mach.mem (k.procs x.server).pdir v 36 f →
      Disjoint (bytesOf f 36) (x.withheldRequest K k) := by
    intro f v hf
    refine Set.disjoint_left.mpr fun y hy hyX => hyX.2 (Or.inl (Or.inl ?_))
    obtain ⟨i, hi, rfl⟩ := hy
    exact ⟨hf.user i hi, _, hf.maps i hi⟩
  exact ⟨fun y hy => hy.1.1, Set.disjoint_left.mpr fun y hy hyX => hyX.2 (Or.inr hy),
    hserver h.poised.pktS.toBytes, hserver h.poised.pktR⟩

/-- What a response may not show is user memory, away from the packets. -/
theorem Arranged.withheldResponse (h : x.Arranged K dirs l r k) :
    (∀ y ∈ x.withheldResponse K k, palignDown y ∉ K) ∧
      Disjoint (bytesOf x.pktC 36) (x.withheldResponse K k) ∧
      Disjoint (bytesOf x.pktS 36) (x.withheldResponse K k) ∧
      Disjoint (bytesOf x.pktR 36) (x.withheldResponse K k) := by
  refine ⟨fun y hy => hy.1.1, Set.disjoint_left.mpr fun y hy hyX => hyX.2 (Or.inl (Or.inl ?_)),
    Set.disjoint_left.mpr fun y hy hyX => hyX.2 (Or.inr (Or.inl hy)),
    Set.disjoint_left.mpr fun y hy hyX => hyX.2 (Or.inr (Or.inr hy))⟩
  obtain ⟨i, hi, rfl⟩ := hy
  exact ⟨h.poised.pktC.user i hi, _, h.poised.pktC.maps i hi⟩

/-- Both calls complete, in the order given; if the client calls first, its message must be long
    enough for the window of the server. -/
theorem Arranged.meets (h : x.Arranged K dirs l r k) (hcov : o = .sendFirst → x.Covered k)
    (f₁ f₂ : BitVec 32) :
    o.Meets x k f₁ f₂ fun k₂ => Running k₂ ∧ x.Met K dirs k k₂ := by
  have hw := h.paged.windowsFree h.closed h.supply
  have hpkt := h.paged.pktS
  cases o with
  | recvFirst =>
    exact (h.poised.recv_then_send hw (straight_of_page h.poised.inb h.paged.inb le_rfl le_rfl)
      (by omega) f₁ f₂).mono fun _ h₁ => h₁.2
  | sendFirst =>
    have hlen := (hcov rfl).1
    have hreq : UserBuffer K k.mach.mem (k.procs x.client).pdir (x.packetC k).sendBuf
        (x.packetS k).recvLen.toNat x.req := h.poised.req.le h.poised.reqLen
    have hpage := h.paged.req
    exact (h.poised.send_then_recv hw (straight_of_page hreq (by omega) le_rfl hlen) f₂
      f₁).mono fun _ h₁ => h₁.2

/-- From where the two met, the server's `reply` completes. -/
theorem Arranged.answers (h : x.Arranged K dirs l r k) (hmet : x.Met K dirs k k₂)
    (f₃ : BitVec 32) : Completes k₂ x.server (syscallRplyMsg x.msgR f₃) (x.Answered K dirs k) :=
  h.poised.reply_after (h.paged.windowsFree h.closed h.supply)
    (straight_of_page h.poised.ans h.paged.ans le_rfl le_rfl) hmet f₃

/-! ### Enough -/

/-- What two runs deliver is the same where the request is. -/
theorem Delivered.agree (hS : x.packetS k' = x.packetS k) (hp : Perturbed X k k')
    (h : x.Delivered k k₂) (h' : x.Delivered k' k₂')
    (hreq : ∀ i < (x.packetS k).recvLen.toNat, x.req i ∉ X) (hy : y ∈ x.written k) :
    k₂'.mach.mem y = k₂.mach.mem y := by
  obtain ⟨mem, rfl, hmem⟩ := hp
  rcases hy with ⟨i, hi, rfl⟩ | ⟨i, hi, rfl⟩
  · rw [h.bytes i hi, h'.bytes i (by rw [hS]; exact hi)]
    exact hmem _ (hreq i hi)
  · exact bytes_of_wordVia (h'.sender.trans h.sender.symm) i hi

/-- Two runs that differ in bytes the request does not cover agree after they met, … -/
theorem Met.agree (hS : x.packetS k' = x.packetS k) (hp : Perturbed X k k')
    (h : x.Met K dirs k k₂) (h' : x.Met K dirs k' k₂')
    (hreq : ∀ i < (x.packetS k).recvLen.toNat, x.req i ∉ X) (hK : palignDown y ∉ K) (hy : y ∉ X) :
    k₂'.mach.mem y = k₂.mach.mem y := by
  have hwritten : x.written k' = x.written k := by rw [written, hS, written]
  by_cases hyw : y ∈ x.written k
  · exact Delivered.agree hS hp h.delivered h'.delivered hreq hyw
  · rw [h.since.user y hK hyw, h'.since.user y hK (by rwa [hwritten])]
    obtain ⟨mem, rfl, hmem⟩ := hp
    exact hmem y hy

/-- … and after the answer, in all other bytes. -/
theorem Answered.agree (hC : x.packetC k' = x.packetC k) (hS : x.packetS k' = x.packetS k)
    (hp : Perturbed X k k') (h : x.Answered K dirs k k₃) (h' : x.Answered K dirs k' k₃')
    (hreq : ∀ i < (x.packetS k).recvLen.toNat, x.req i ∉ X)
    (hresp : ∀ i < (x.packetC k).recvLen.toNat, x.resp i ∉ X) (hK : palignDown y ∉ K)
    (hy : y ∉ X) : k₃'.mach.mem y = k₃.mach.mem y := by
  have hwritten : x.written k' = x.written k := by rw [written, hS, written]
  by_cases hyw : y ∈ x.written k
  · exact Delivered.agree hS hp h.delivered h'.delivered hreq hyw
  by_cases hya : y ∈ bytesOf x.ans (x.packetC k).recvLen.toNat
  · obtain ⟨i, hi, rfl⟩ := hya
    rw [h.bytes i hi, h'.bytes i (by rw [hC]; exact hi)]
    obtain ⟨mem, rfl, hmem⟩ := hp
    exact hmem _ (hresp i hi)
  · rw [h.since.user y hK (by simp [hyw, hya]),
      h'.since.user y hK (by simp [hwritten, hC, hyw, hya])]
    obtain ⟨mem, rfl, hmem⟩ := hp
    exact hmem y hy

/-- The condition is the same in both runs. -/
theorem Covered.perturbed (h : x.Covered k) (hC : x.packetC k' = x.packetC k)
    (hS : x.packetS k' = x.packetS k) (hR : x.packetR k' = x.packetR k) : x.Covered k' := by
  rw [Covered, hC, hS, hR]
  exact h

/-- **Messages that are long enough.** -/
theorem Arranged.noOverRead (h : x.Arranged K dirs l r k) (hcov : x.Covered k) :
    x.NoOverRead K k := by
  refine ⟨fun k' hp o f₁ f₂ => ?_, fun k' hp o f₁ f₂ f₃ => ?_⟩
  · obtain ⟨hX, hXC, hXS, hXR⟩ := h.withheldRequest
    obtain ⟨h', hC, hS, hR⟩ := h.perturbed hp hX hXC hXS hXR
    refine (h.meets (fun _ => hcov) f₁ f₂).mono fun k₂ hm => ?_
    refine (h'.meets (fun _ => hcov.perturbed hC hS hR) f₁ f₂).mono fun k₂' hm' => ?_
    intro y hy
    refine Met.agree hS hp hm.2 hm'.2 (fun i hi hin => ?_) hy.1 fun hin => ?_
    · -- what is copied is in the message
      exact hin.2 (Or.inl (Or.inr ⟨i, lt_of_lt_of_le hi hcov.1, rfl⟩))
    · exact hin.2 (Or.inl (Or.inl hy))
  · obtain ⟨hX, hXC, hXS, hXR⟩ := h.withheldResponse
    obtain ⟨h', hC, hS, hR⟩ := h.perturbed hp hX hXC hXS hXR
    refine (h.meets (fun _ => hcov) f₁ f₂).mono fun k₂ hm => ?_
    refine (h.answers hm.2 f₃).mono fun k₃ ha => ?_
    refine (h'.meets (fun _ => hcov.perturbed hC hS hR) f₁ f₂).mono fun k₂' hm' => ?_
    refine (h'.answers hm'.2 f₃).mono fun k₃' ha' => ?_
    intro y hy
    refine Answered.agree hC hS hp ha ha' (fun i hi hin => ?_) (fun i hi hin => ?_) hy.1
      fun hin => ?_
    · have hmap := h.poised.req.toBytes
      exact hin.2 (Or.inl (Or.inl ⟨hmap.user i (lt_of_lt_of_le hi h.poised.reqLen), _,
        hmap.maps i (lt_of_lt_of_le hi h.poised.reqLen)⟩))
    · exact hin.2 (Or.inl (Or.inr ⟨i, lt_of_lt_of_le hi hcov.2, rfl⟩))
    · exact hin.2 (Or.inl (Or.inl hy))

/-! ### Necessary -/

/-- The server receives, the client sends, and both calls are made. -/
theorem Arranged.reach_met (h : x.Arranged K dirs l r k) (hrun : Running k)
    (hC : k.idle ≠ some x.client) (hS : k.idle ≠ some x.server)
    (hQ : Order.recvFirst.Meets x k f₁ f₂ Q) : ∃ k₂, Running k₂ ∧ x.Met K dirs k k₂ ∧ Q k₂ := by
  have hmeet : Order.recvFirst.Meets x k f₁ f₂ fun k₂ => Running k₂ ∧ x.Met K dirs k k₂ :=
    h.meets (o := .recvFirst) (by intro hne; cases hne) f₁ f₂
  have hsupply : Supply K dirs k.mach.mem 0 k.mach.pm := h.supply.mono (by omega)
  obtain ⟨-, k₁, -, -, ⟨⟨hrun₁, addr, hst⟩, hmeet₁⟩, hQ₁⟩ := Completes.reach
    (((h.poised.recv_first hsupply).and hmeet).and hQ)
    ⟨h.poised.alive, hrun, h.poised.serverReady⟩ hS
  obtain ⟨-, k₂, -, -, ⟨hrun₂, hmet⟩, hQ₂⟩ := Completes.reach (hmeet₁.and hQ₁)
    ⟨hst.since.alive, hrun₁, hst.client⟩ (by rw [hst.since.idle]; exact hC)
  exact ⟨k₂, hrun₂, hmet, hQ₂⟩

/-- And the server replies. -/
theorem Arranged.reach_answered (h : x.Arranged K dirs l r k) (hmet : x.Met K dirs k k₂)
    (hrun : Running k₂) (hS : k.idle ≠ some x.server)
    (hQ : Completes k₂ x.server (syscallRplyMsg x.msgR f₃) Q) :
    ∃ k₃, x.Answered K dirs k k₃ ∧ Q k₃ := by
  obtain ⟨-, k₃, -, -, ha, hQ₃⟩ := Completes.reach ((h.answers hmet f₃).and hQ) (hmet.due hrun)
    (by rw [hmet.since.idle]; exact hS)
  exact ⟨k₃, ha, hQ₃⟩

/-- The kernel with one other byte in memory. -/
def bump (k : Kernel Unit) (y : BitVec 32) : Kernel Unit :=
  { k with mach := { k.mach with mem := write8 k.mach.mem y (k.mach.mem y + 1#8) } }

/-- A kernel with another byte there. -/
theorem bump_perturbed (hy : y ∈ X) : Perturbed X k (bump k y) := by
  refine ⟨_, rfl, fun z hz => Function.update_of_ne ?_ _ _⟩
  rintro rfl
  exact hz hy

/-- It is another one. -/
theorem bump_ne : (bump k y).mach.mem y ≠ k.mach.mem y := by
  intro h
  have hself : (bump k y).mach.mem y = k.mach.mem y + 1#8 := by
    show write8 k.mach.mem y (k.mach.mem y + 1#8) y = _
    rw [write8, Function.update_self]
  rw [hself] at h
  generalize k.mach.mem y = b at h
  bv_omega

/-- A buffer of the server longer than the request: the byte behind the request shows. -/
theorem NoOverRead.request_covered (hn : x.NoOverRead K k) (h : x.Arranged K dirs l r k)
    (hsep : x.Separate K k) : (x.packetS k).recvLen.toNat ≤ (x.packetC k).sendLen.toNat := by
  by_contra hno
  rw [not_le] at hno
  have hreq := h.poised.req
  have hl := lt_of_lt_of_le hno h.poised.reqLen
  -- the byte behind the request is withheld
  have hwith : x.req (x.packetC k).sendLen.toNat ∈ x.withheldRequest K k := by
    refine ⟨⟨hreq.toBytes.user _ hl, _, hreq.toBytes.maps _ hl⟩, ?_⟩
    rintro ((hin | ⟨i, hi, heq⟩) | hin)
    · exact hsep.req _ hno hin
    · exact absurd (hreq.inj _ hl _ (hi.trans hl) heq) (Nat.ne_of_gt hi)
    · exact Set.disjoint_left.mp (h.poised.disjoint 0 3 (by decide)) hin ⟨_, hl, rfl⟩
  obtain ⟨hX, hXC, hXS, hXR⟩ := h.withheldRequest
  have hp := bump_perturbed (k := k) hwith
  obtain ⟨h', hC, hS, -⟩ := h.perturbed hp hX hXC hXS hXR
  obtain ⟨k₂, -, hmet, hQ⟩ := h.reach_met hsep.running hsep.client hsep.server
    (hn.request _ hp .recvFirst 0#32 0#32)
  obtain ⟨k₂', -, hmet', hsame⟩ := h'.reach_met hsep.running hsep.client hsep.server hQ
  -- and it is copied
  have hinb := h.poised.inb.toBytes
  have heq := hsame _ ⟨hinb.user _ hno, _, hinb.maps _ hno⟩
  rw [hmet.delivered.bytes _ hno, hmet'.delivered.bytes _ (by rw [hS]; exact hno)] at heq
  exact bump_ne heq

/-- A buffer of the client longer than the response: the byte behind the response shows. -/
theorem NoOverRead.response_covered (hn : x.NoOverRead K k) (h : x.Arranged K dirs l r k)
    (hsep : x.Separate K k) : (x.packetC k).recvLen.toNat ≤ (x.packetR k).sendLen.toNat := by
  by_contra hno
  rw [not_le] at hno
  have hresp : UserBytes K k.mach.mem (k.procs x.server).pdir (x.packetR k).sendBuf
      (x.packetC k).recvLen.toNat x.resp := h.poised.resp.le h.poised.respLen
  have hl := lt_of_lt_of_le hno h.poised.respLen
  have hpage := hresp.in_page hsep.page
  have hwith : x.resp (x.packetR k).sendLen.toNat ∈ x.withheldResponse K k := by
    refine ⟨⟨hresp.user _ hno, _, hresp.maps _ hno⟩, ?_⟩
    rintro ((hin | ⟨i, hi, heq⟩) | hin | hin)
    · exact hsep.resp _ hno hin
    · rw [hpage _ hno, hpage i (hi.trans hno)] at heq
      have hle := hsep.page
      exact absurd (physBytes_inj (by omega) _ hno _ (hi.trans hno) heq) (Nat.ne_of_gt hi)
    · exact Set.disjoint_left.mp (h.poised.disjoint 1 5 (by decide)) hin ⟨_, hl, rfl⟩
    · exact Set.disjoint_left.mp (h.poised.disjoint 2 5 (by decide)) hin ⟨_, hl, rfl⟩
  obtain ⟨hX, hXC, hXS, hXR⟩ := h.withheldResponse
  have hp := bump_perturbed (k := k) hwith
  obtain ⟨h', hC, -, -⟩ := h.perturbed hp hX hXC hXS hXR
  obtain ⟨k₂, hrun₂, hmet, hreply⟩ := h.reach_met hsep.running hsep.client hsep.server
    (hn.response _ hp .recvFirst 0#32 0#32 0#32)
  obtain ⟨k₃, hans, hQ⟩ := h.reach_answered hmet hrun₂ hsep.server hreply
  obtain ⟨k₂', hrun₂', hmet', hreply'⟩ := h'.reach_met hsep.running hsep.client hsep.server hQ
  obtain ⟨k₃', hans', hsame⟩ := h'.reach_answered hmet' hrun₂' hsep.server hreply'
  have hbuf := h.poised.ans.toBytes
  have heq := hsame _ ⟨hbuf.user _ hno, _, hbuf.maps _ hno⟩
  rw [hans.bytes _ hno, hans'.bytes _ (by rw [hC]; exact hno)] at heq
  exact bump_ne heq

/-- **No over-read across processes.**  Take buffers within pages and any lengths, with user memory
    behind the messages as far as the buffers received into would reach.  If these are no longer
    than the messages, then in either order, and after the reply, the memory of the receiving side
    does not depend on anything but the message.  And where the memory behind the messages is the
    sender's own this is exact. -/
theorem no_over_read
    (h : x.Arranged K dirs (max (x.packetC k).sendLen.toNat (x.packetS k).recvLen.toNat)
      (max (x.packetR k).sendLen.toNat (x.packetC k).recvLen.toNat) k) :
    (x.Covered k → x.NoOverRead K k) ∧ (x.Separate K k → (x.NoOverRead K k ↔ x.Covered k)) := by
  refine ⟨h.noOverRead, fun hsep => ⟨fun hn => ⟨?_, ?_⟩, h.noOverRead⟩⟩
  · exact hn.request_covered h hsep
  · exact hn.response_covered h hsep

end Pairs

/-! ### The small system -/

/-- Where the lengths agree the small system has no over-read. -/
theorem no_over_read_small :
    (smallExchange false).NoOverRead {F | F ∈ exchangeTables} (exchangeKernel false) := by
  obtain ⟨hC, hS, hR⟩ := packets_exchange false
  have hcov : (smallExchange false).Covered (exchangeKernel false) := by
    rw [Covered, hC, hS, hR]
    decide
  have hpoised := (ready_exchange false).poised
  rw [← max_eq_left hcov.1, ← max_eq_left hcov.2] at hpoised
  exact (no_over_read ⟨hpoised, paged_exchange, closed_exchange, supply_exchange⟩).1 hcov

/-- The user pages of the small system. -/
theorem frame_exchange {D v y : BitVec 32} (hD : D ∈ exchangeDirs)
    (h : hwTranslate (exchangeKernel false).mach.mem D v = some y)
    (hK : palignDown y ∉ exchangeTables) :
    palignDown y = D + 0x4000#32 ∨ palignDown y = 0x8000#32 := by
  obtain ⟨hpde, hpte, hf⟩ := walk_eq_some_iff.mp (walk_of_hwTranslate h).1
  obtain ⟨-, hDn, -, -⟩ := exchange_entries false hD
  rcases pdeOf_exchange hD hpde with ⟨-, htab⟩ | ⟨hreg, -⟩
  · rw [pteOf, htab] at hpte hf
    have hlt := vmPtabIdx_lt v
    have hbase : (D + 0x2000#32).toNat = D.toNat + 0x2000 := by
      rw [BitVec.toNat_add, BitVec.toNat_ofNat]
      omega
    by_cases h₅ : vmPtabIdx v = 5#32
    · left
      rw [← hf, h₅]
      rw [exchangeDirs, List.mem_pair] at hD
      rcases hD with rfl | rfl <;> decide +kernel
    by_cases h₆ : vmPtabIdx v = 6#32 ∧ D = 0x1000#32
    · right
      rw [← hf, h₆.1, h₆.2]
      decide +kernel
    · -- no other entry is stored in the tables
      refine absurd hpte ?_
      have hwords : (exchangeWords false).all (fun u => decide (u.1.toNat % 4 = 0 ∧
          (u.1.toNat / 4096 = 3 → u.1.toNat = 0x3014 ∨ u.1.toNat = 0x3018) ∧
          (u.1.toNat / 4096 = 4 → u.1.toNat = 0x4014))) = true := by
        decide +kernel
      have h₅' : (vmPtabIdx v).toNat ≠ 5 := fun h => h₅ (BitVec.eq_of_toNat_eq h)
      have h₆' : (vmPtabIdx v).toNat = 6 → D.toNat ≠ 0x1000 := fun h hd =>
        h₆ ⟨BitVec.eq_of_toNat_eq h, BitVec.eq_of_toNat_eq hd⟩
      have hslot := slot_toNat (b := D + 0x2000#32) (i := vmPtabIdx v) (by omega) hlt
      have hread : tableEntry (exchangeKernel false).mach.mem (D + 0x2000#32) (vmPtabIdx v)
          = tableEntry (fun _ => 0#8) (D + 0x2000#32) (vmPtabIdx v) := by
        refine read32_writeAll_of_ne (by omega) fun u hu => ?_
        obtain ⟨h4, h3014, h4014⟩ := of_decide_eq_true (List.all_eq_true.mp hwords u hu)
        refine ⟨h4, fun heq => ?_⟩
        have := congrArg BitVec.toNat heq
        omega
      rw [hread, tableEntry_zero]
      exact not_present_zero
  · exact absurd hreg (spaces_exchange.region_of_user hD h hK)

/-- The small system with a request of one byte. -/
def shortKernel : Kernel Unit :=
  { exchangeKernel false with mach := { (exchangeKernel false).mach with
      mem := write32 (exchangeKernel false).mach.mem 0x5010#32 1#32 } }

/-- What the packets of the short exchange say. -/
theorem packets_short :
    (smallExchange false).packetC shortKernel = ⟨0#32, 2#32, 0x5100#32, 0x5200#32, 1#32, 2#32, 0#32,
      0#32, 0#32⟩ ∧
    (smallExchange false).packetS shortKernel
      = (smallExchange false).packetS (exchangeKernel false) ∧
    (smallExchange false).packetR shortKernel
      = (smallExchange false).packetR (exchangeKernel false) := by
  decide +kernel

/-- Its address spaces are the same. -/
theorem agree_short {y : BitVec 32} (hy : palignDown y ∈ exchangeTables) :
    shortKernel.mach.mem y = (exchangeKernel false).mach.mem y := by
  refine write32_of_not_inRange fun hin => ?_
  rw [inRange_iff (by decide)] at hin
  have hframe : palignDown y = 0x5000#32 := by
    apply BitVec.eq_of_toNat_eq
    rw [palignDown_toNat]
    simp only [BitVec.toNat_ofNat] at hin ⊢
    omega
  rw [hframe] at hy
  exact absurd hy (by decide)

/-- The short exchange is arranged. -/
theorem arranged_short : (smallExchange false).Arranged {F | F ∈ exchangeTables}
    {D | D ∈ exchangeDirs} 2 2 shortKernel := by
  obtain ⟨hC, hS, hR⟩ := packets_short
  obtain ⟨hC₀, hS₀, hR₀⟩ := packets_exchange false
  have hr := ready_exchange false
  obtain ⟨hpaging, hsame⟩ := Paging.of_agree (m := (exchangeKernel false).mach)
    ⟨hr.spaces, supply_exchange, hr.clientDir⟩ fun y hy => agree_short hy
  have hreq := hr.req.same hr.spaces hr.clientDir hsame
  have hinb := hr.inb.same hr.spaces hr.serverDir hsame
  have hresp := hr.resp.same hr.spaces hr.serverDir hsame
  have hans := hr.ans.same hr.spaces hr.clientDir hsame
  have hrecv := hr.receiver
  have hapart := apart_exchange false
  rw [hC₀] at hreq hans hrecv
  rw [hR₀] at hresp
  rw [regions, hC₀, hS₀, hR₀] at hapart
  have hpg := paged_exchange
  refine ⟨⟨⟨hr.alive.named, hr.alive.idle, hr.alive.cr3⟩, hr.distinct, hr.clientReady,
    hr.serverReady, hr.empty, hr.heap, hr.clientDir, hr.serverDir, hpaging.spaces, ?_,
    hr.pktC.same hr.spaces hr.clientDir hsame, hr.pktS.same hr.spaces hr.serverDir hsame,
    hr.pktR.same hr.spaces hr.serverDir hsame, ?_, ?_, ?_, ?_, ?_, ?_, ?_⟩,
    ⟨hpg.pktC, hpg.pktS, hpg.pktR, ?_, ?_, ?_, ?_⟩, fun E hE q hq => ?_, hpaging.supply⟩
  · rw [hC]
    exact hrecv
  · rw [hC]
    exact hreq
  · rw [hS]
    exact hinb
  · rw [hR, hR₀]
    exact hresp
  · rw [hC]
    exact hans
  · rw [hS, hS₀]
    decide
  · rw [hC]
    decide
  · rw [spans, hC, hS, hS₀]
    exact hapart
  · rw [hC]
    decide
  · rw [hS]
    exact hpg.inb
  · rw [hR]
    exact hpg.resp
  · rw [hC]
    decide
  · exact (hr.spaces.walk_agree (fun y hy => agree_short hy) hE q).trans (closed_exchange E hE q hq)

/-- A user byte of the small system, and whose it is. -/
theorem frame_short {s : Slot} {y : BitVec 32} (hD : (shortKernel.procs s).pdir ∈ exchangeDirs)
    (hy : y ∈ memoryOf {F | F ∈ exchangeTables} shortKernel.mach.mem (shortKernel.procs s).pdir) :
    palignDown y = (shortKernel.procs s).pdir + 0x4000#32 ∨ palignDown y = 0x8000#32 := by
  obtain ⟨hK, v, hv⟩ := hy
  rw [hwTranslate_congr (spaces_exchange.walk_agree (fun y hy => agree_short hy) hD v)] at hv
  exact frame_exchange hD hv hK

/-- Its buffers are apart. -/
theorem separate_short :
    (smallExchange false).Separate {F | F ∈ exchangeTables} shortKernel := by
  obtain ⟨hC, hS, hR⟩ := packets_short
  obtain ⟨-, hS₀, hR₀⟩ := packets_exchange false
  refine ⟨⟨rfl, _, rfl⟩, by decide, by decide, ?_, ?_, ?_⟩
  · rw [hS, hS₀]
    intro i hi hin
    have hframe : palignDown ((smallExchange false).req i) = 0x5000#32 := by
      obtain rfl | rfl : i = 0 ∨ i = 1 := by simp only [BitVec.toNat_ofNat] at hi; omega
      · decide
      · decide
    rcases frame_short (by decide) hin with h | h
    · exact absurd (hframe.symm.trans h) (by decide)
    · exact absurd (hframe.symm.trans h) (by decide)
  · rw [hC]
    intro i hi hin
    have hframe : palignDown ((smallExchange false).resp i) = 0x6000#32 := by
      obtain rfl | rfl : i = 0 ∨ i = 1 := by simp only [BitVec.toNat_ofNat] at hi; omega
      · decide
      · decide
    rcases frame_short (by decide) hin with h | h
    · exact absurd (hframe.symm.trans h) (by decide)
    · exact absurd (hframe.symm.trans h) (by decide)
  · rw [hR, hR₀, hC]
    decide

/-- **A message of one byte into a buffer of two.**  The second byte is the one behind the
    message. -/
theorem longer_buffer_leaks : ∃ (x : Exchange) (K dirs : Set (BitVec 32)) (k : Kernel Unit),
    x.Arranged K dirs (max (x.packetC k).sendLen.toNat (x.packetS k).recvLen.toNat)
      (max (x.packetR k).sendLen.toNat (x.packetC k).recvLen.toNat) k ∧
    x.Separate K k ∧ ¬ x.NoOverRead K k := by
  obtain ⟨hC, hS, hR⟩ := packets_short
  obtain ⟨-, hS₀, hR₀⟩ := packets_exchange false
  refine ⟨smallExchange false, {F | F ∈ exchangeTables}, {D | D ∈ exchangeDirs}, shortKernel, ?_,
    separate_short, fun hn => ?_⟩
  · rw [hC, hS, hS₀, hR, hR₀]
    exact arranged_short
  · have hle := hn.request_covered arranged_short separate_short
    rw [hC, hS, hS₀] at hle
    exact absurd hle (by decide)

end Exchange

end Leoman
