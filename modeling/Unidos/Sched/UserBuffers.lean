import Unidos.Sched.SysWrite

/-!
# Buffers and strings that user programs pass

Three functions decide whether a range of user addresses may be touched: `_ptr_range_safe` for
`write`, `_ptr_safe` for `waitpid` and `execve`, and `range_check` for the copy routines. They give
the same answer except for a buffer that ends with the last byte of the user half, which `write`
alone refuses (`validators_agree_iff`). A path is copied in byte by byte by `copyin_path_bounded`,
here with the buffer it writes and a log of what it reads: `copyinPathInto_exact` says when it
succeeds, and that the comparison after it stays inside the buffer.
-/

namespace Unidos.Sched

open Lib

/-! ## The checks on a range -/

section Validators

variable {ptr len : Nat} {tf : TrapFrame}

/-- `_ptr_range_safe` on the frame of a user program. Its end is exclusive, and must be a user
address itself. -/
theorem ptrRangeSafe_user (huser : tf.isUser = true) (hptr : ptr < 2 ^ 32) (hpos : 0 < len)
    (hlen : len < 2 ^ 32) : ptrRangeSafe ptr len tf = true ↔ ptr + len < kernelVirtualBase := by
  unfold ptrRangeSafe kernelVirtualBase
  rw [if_neg (by omega)]
  split
  · simp only [Bool.false_eq_true, false_iff]
    omega
  · simp only [huser, Bool.not_true, Bool.false_or, Bool.and_eq_true, decide_eq_true_eq]
    omega

/-- `_ptr_safe` on the frame of a user program. -/
theorem ptrSafe_user (huser : tf.isUser = true) (hptr : ptr < 2 ^ 32) (hnull : ptr ≠ 0)
    (hpos : 0 < len) (hlen : len < 2 ^ 32) :
    ptrSafe ptr len tf = true ↔ ptr + len ≤ kernelVirtualBase := by
  unfold ptrSafe kernelVirtualBase
  rw [if_neg hnull, if_neg (by omega)]
  dsimp only
  split
  · simp only [Bool.false_eq_true, false_iff]
    omega
  · simp only [huser, Bool.not_true, Bool.false_or, decide_eq_true_eq]
    omega

/-- The three checks accept the buffer exactly if it lies in the user half. -/
structure ValidatorsAgree (ptr len : Nat) (tf : TrapFrame) : Prop where
  write : ptrRangeSafe ptr len tf = true ↔ ptr + len ≤ kernelVirtualBase
  safe : ptrSafe ptr len tf = true ↔ ptr + len ≤ kernelVirtualBase
  copy : Uaccess.rangeCheck ptr len true = true ↔ ptr + len ≤ kernelVirtualBase

/-- The checks agree on every buffer but those that end where the user half ends. -/
theorem validators_agree_iff (huser : tf.isUser = true) (hptr : ptr < 2 ^ 32) (hnull : ptr ≠ 0)
    (hpos : 0 < len) (hlen : len < 2 ^ 32) :
    ValidatorsAgree ptr len tf ↔ ptr + len ≠ kernelVirtualBase := by
  have hwrite := ptrRangeSafe_user huser hptr hpos hlen
  constructor
  · intro h hend
    have := hwrite.mp (h.write.mpr (Nat.le_of_eq hend))
    omega
  · intro hend
    refine ⟨hwrite.trans ?_, ptrSafe_user huser hptr hnull hpos hlen,
      Uaccess.rangeCheck_user hptr hpos hlen⟩
    omega

end Validators

/-- A frame of a user program. -/
def userFrame : TrapFrame :=
  { edi := 0, esi := 0, ebp := 0, espDummy := 0, ebx := 0, edx := 0, ecx := 0, eax := 0, ds := 0x23,
    es := 0x23, fs := 0x23, gs := 0x23, cr2 := 0, vector := 0x80, error := 0, eip := 0x40000000,
    cs := 0x1B, eflags := 0x202, userEsp := 0x40001FF0, userSs := 0x23 }

/-- A buffer well inside the user half. -/
theorem validators_agree_at_code : userFrame.isUser = true ∧
    ValidatorsAgree 0x40000000 16 userFrame :=
  ⟨by decide, (validators_agree_iff (by decide) (by decide) (by decide) (by decide)
    (by decide)).mpr (by decide)⟩

/-- The last byte below `KERNEL_VIRTUAL_BASE` can be copied in, but not written from. -/
theorem write_refuses_last_user_byte : userFrame.isUser = true ∧
    ptrRangeSafe 0xBFFFFFFF 1 userFrame = false ∧ ptrSafe 0xBFFFFFFF 1 userFrame = true ∧
      Uaccess.rangeCheck 0xBFFFFFFF 1 true = true := by decide

/-! ## A user byte -/

/-- The user program can read the byte `b` at `va`: the address is a user address other than null,
and its page is mapped for the user. -/
structure UserByte (s : Paging.State) (va : Nat) (b : Byte) : Prop where
  ready : s.pageDirectoryLocPhys ≠ 0
  ne_zero : va ≠ 0
  below : va < kernelVirtualBase
  allowed : Uaccess.PageOpen s false va
  byte : Uaccess.loadAt s va = .ok b

section UserByte

variable {s : Paging.State} {va : Nat}

theorem UserByte.unique {b b' : Byte} (h : UserByte s va b) (h' : UserByte s va b') : b = b' :=
  Except.ok.inj (h.byte.symm.trans h'.byte)

/-- A query that returns has walked the tables as the processor does. -/
theorem pagingQueryPage_walk {p : PagingStatus × Paging.QueryResult}
    (hinit : s.pageDirectoryLocPhys ≠ 0) (h : Paging.pagingQueryPage s va = .ok p) :
    p = (Uaccess.walkAt s va).elim (.errNotMapped, .zero)
      fun w => (.ok, ⟨true, entryPhys w, entryFlags w⟩) := by
  unfold Paging.pagingQueryPage at h
  rw [if_neg hinit] at h
  obtain ⟨pd, hpd, h⟩ := bind_eq_ok.mp h
  dsimp only at h
  rw [Paging.physToVirt_eq_ok hpd, Uaccess.readWord_dir] at h
  unfold Uaccess.walkAt
  split at h
  · rename_i habsent
    rw [translate_of_absent habsent, Option.elim_none]
    exact (Except.ok.inj h).symm
  · rename_i hpresent
    rw [Bool.not_eq_false] at hpresent
    obtain ⟨pt, hpt, h⟩ := bind_eq_ok.mp h
    rw [Paging.physToVirt_eq_ok hpt, entryPhys_eq] at h
    change (if entryPresent (tableEntry _ _ (Paging.ptiOf va)) = false then _ else _) = _ at h
    rw [translate_of_present hpresent, Option.guard]
    split at h
    · rename_i habsent
      rw [if_neg (by rw [habsent]; exact Bool.false_ne_true), Option.elim_none]
      exact (Except.ok.inj h).symm
    · rename_i hpte
      rw [if_pos (Bool.not_eq_false _ ▸ hpte), Option.elim_some]
      exact (Except.ok.inj h).symm

/-- The page check of `copyin` passes exactly on pages that are open to the user. -/
theorem userPage_open {ok : Bool} (hinit : s.pageDirectoryLocPhys ≠ 0)
    (h : Paging.userPage s (4096 * (va / 4096)) = .ok ok) :
    ok = true ↔ Uaccess.PageOpen s false va := by
  obtain ⟨⟨status, res⟩, hquery, h⟩ := bind_eq_ok.mp h
  have hwalk := pagingQueryPage_walk hinit hquery
  rw [Uaccess.walkAt_page] at hwalk
  obtain rfl := Except.ok.inj h
  cases hw : Uaccess.walkAt s va with
  | none =>
      rw [hw, Option.elim_none, Prod.mk.injEq] at hwalk
      obtain ⟨rfl, rfl⟩ := hwalk
      simp [Uaccess.PageOpen, hw]
  | some w =>
      have huser :=
        Mm.entryFlags_and w (show (0xFFF : BitVec 32) &&& Paging.pgUser = Paging.pgUser by decide)
      rw [hw, Option.elim_some, Prod.mk.injEq] at hwalk
      obtain ⟨rfl, rfl⟩ := hwalk
      simp [Uaccess.PageOpen, Uaccess.entryAllows, hw, huser]

/-- The byte that the processor loads, through the walk. -/
theorem loadByte_eq (s : Paging.State) (va : Nat) :
    Paging.loadByte s va = Uaccess.loadAt s va := by
  unfold Paging.loadByte Uaccess.loadAt Uaccess.physAt Uaccess.walkAt
  dsimp only
  rw [Uaccess.readWord_dir]
  generalize hdir : tableEntry s.pmm.mem (s.cr3 / 4096) (Paging.pdiOf va) = w
  cases hpresent : entryPresent w with
  | false =>
      rw [translate_of_absent (by rw [hdir, hpresent])]
      rfl
  | true =>
      rw [translate_of_present (by rw [hdir, hpresent]), hdir, entryPhys_eq w]
      change (if (true && entryPresent (tableEntry _ _ (Paging.ptiOf va))) = true
        then _ else _) = _
      rw [Bool.true_and, Option.guard]
      split
      · rw [entryPhys_eq]
        rfl
      · rfl

/-- `copyin` of one byte. -/
theorem copyin_byte {r : Option (List Byte)} (hva : va < 2 ^ 32)
    (h : Paging.copyin s va 1 = .ok r) :
    (∃ b, r = some [b] ∧ UserByte s va b) ∨ (r = none ∧ ∀ b, ¬ UserByte s va b) := by
  unfold Paging.copyin at h
  split at h
  · rename_i hzero
    exact .inr ⟨(Except.ok.inj h).symm, fun b hb => hb.ne_zero hzero⟩
  rename_i hne
  rw [if_neg Nat.one_ne_zero, rangeCheckUser_eq] at h
  split at h
  · rename_i hrange
    refine .inr ⟨(Except.ok.inj h).symm, fun b hb => ?_⟩
    rw [(Uaccess.rangeCheck_user hva Nat.one_pos (by decide)).mpr hb.below] at hrange
    cases hrange
  rename_i hrange
  rw [Bool.not_eq_false, Uaccess.rangeCheck_user hva Nat.one_pos (by decide)] at hrange
  obtain ⟨ok, hok, h⟩ := bind_eq_ok.mp h
  have hpages : Paging.userPage s (4096 * (va / 4096)) = .ok ok := by
    simp only [Nat.sub_self, Nat.add_zero, Nat.zero_add, List.range_one, List.map_cons,
      List.map_nil, Paging.userPages] at hok
    obtain ⟨ok', hok', hok⟩ := bind_eq_ok.mp hok
    rw [hok']
    cases ok' <;> exact hok
  by_cases hinit : s.pageDirectoryLocPhys = 0
  · -- The query refuses before paging is set up.
    have hfalse : ok = false := by
      simp only [Paging.userPage, Paging.pagingQueryPage, if_pos hinit] at hpages
      exact (Except.ok.inj hpages).symm
    rw [if_pos hfalse] at h
    exact .inr ⟨(Except.ok.inj h).symm, fun b hb => hb.ready hinit⟩
  have hopen := userPage_open hinit hpages
  split at h
  · rename_i hfalse
    refine .inr ⟨(Except.ok.inj h).symm, fun b hb => ?_⟩
    rw [hopen.mpr hb.allowed] at hfalse
    cases hfalse
  · rename_i htrue
    rw [Bool.not_eq_false] at htrue
    simp only [List.range_one, List.mapM_cons, List.mapM_nil, Nat.add_zero] at h
    obtain ⟨bytes, hbytes, h⟩ := bind_eq_ok.mp h
    obtain ⟨b, hload, hbytes⟩ := bind_eq_ok.mp hbytes
    obtain rfl := Except.ok.inj hbytes
    exact .inl ⟨b, (Except.ok.inj h).symm, hinit, hne, hrange, hopen.mp htrue,
      loadByte_eq s va ▸ hload⟩

end UserByte

/-! ## Copying a path -/

/-- What `copyin_path_bounded` leaves: the error it returns, if any, the memory from `out` on, and
the user addresses it has read a byte from. -/
structure PathCopy where
  err : Option Errno
  out : Nat → Byte
  reads : List Nat

/-- The loop of `copyin_path_bounded` for `n` more bytes from index `i` on. -/
def copyinPathFrom (s : Paging.State) (userPath outLen : Nat) :
    Nat → Nat → (Nat → Byte) → Except Trap PathCopy
  | 0, _, out => .ok ⟨some .nametoolong, Function.update out (outLen - 1) 0, []⟩
  | n + 1, i, out => do
      let ch ← Paging.copyin s ((userPath + i) % 2 ^ 32) 1
      match ch with
      | some [ch] =>
          let out := Function.update out i ch
          if ch = 0 then .ok ⟨none, out, [(userPath + i) % 2 ^ 32]⟩
          else do
            let r ← copyinPathFrom s userPath outLen n (i + 1) out
            .ok { r with reads := (userPath + i) % 2 ^ 32 :: r.reads }
      | _ => .ok ⟨some .fault, out, []⟩

/-- `copyin_path_bounded` with the buffer it fills. -/
def copyinPathInto (s : Paging.State) (userPath outLen : Nat) (out : Nat → Byte) :
    Except Trap PathCopy :=
  if userPath = 0 ∨ outLen < 2 then .ok ⟨some .fault, out, []⟩
  else copyinPathFrom s userPath outLen outLen 0 out

section Path

variable {s : Paging.State} {userPath outLen n i : Nat} {out : Nat → Byte} {r : PathCopy}

/-- The loop leaves alone what it has copied, unless the path is too long. -/
theorem copyinPathFrom_below (h : copyinPathFrom s userPath outLen n i out = .ok r)
    (herr : r.err = none) {k : Nat} (hk : k < i) : r.out k = out k := by
  induction n generalizing i out r with
  | zero =>
      obtain rfl := Except.ok.inj h
      cases herr
  | succ n ih =>
      obtain ⟨ch, hch, h⟩ := bind_eq_ok.mp h
      split at h
      · rename_i ch'
        dsimp only at h
        split at h
        · obtain rfl := Except.ok.inj h
          exact Function.update_of_ne (Nat.ne_of_lt hk) _ _
        · obtain ⟨r', hr', h⟩ := bind_eq_ok.mp h
          obtain rfl := Except.ok.inj h
          rw [ih hr' herr (Nat.lt_succ_of_lt hk)]
          exact Function.update_of_ne (Nat.ne_of_lt hk) _ _
      · obtain rfl := Except.ok.inj h
        rfl

/-- What a copy returns to its caller: the bytes of the string, or the error. -/
def PathCopy.result (r : PathCopy) (i : Nat) : Except Errno (List Byte) :=
  match r.err with
  | none => .ok ((List.range' i r.reads.length).map r.out)
  | some e => .error e

theorem copyinPath_eq (s : Paging.State) (userPath outLen n i : Nat) (out : Nat → Byte) :
    copyinPath s userPath (List.range' i n) =
      (copyinPathFrom s userPath outLen n i out).map (·.result i) := by
  induction n generalizing i out with
  | zero => rfl
  | succ n ih =>
      rw [List.range'_succ, copyinPath, copyinPathFrom]
      cases hch : Paging.copyin s ((userPath + i) % 2 ^ 32) 1 with
      | error e => rfl
      | ok ch =>
          rw [ok_bind, ok_bind]
          split
          · rename_i ch'
            dsimp only
            split
            · rename_i hzero
              simp [Except.map, PathCopy.result]
            · rw [ih (i + 1) (Function.update out i ch')]
              cases hrest : copyinPathFrom s userPath outLen n (i + 1)
                  (Function.update out i ch') with
              | error e => rfl
              | ok r =>
                  rw [ok_bind]
                  cases herr : r.err with
                  | some e => simp [Except.map, PathCopy.result, herr, ok_bind]
                  | none =>
                      have hbelow := copyinPathFrom_below hrest herr (Nat.lt_succ_self i)
                      rw [Function.update_self] at hbelow
                      simp [Except.map, PathCopy.result, herr, ok_bind, List.range'_succ, hbelow]
          · simp [Except.map, PathCopy.result]

/-- The bytes that `_execve` compares are the ones in the buffer. -/
theorem copyinPathBounded_eq (s : Paging.State) (userPath outLen : Nat) (out : Nat → Byte) :
    copyinPathBounded s userPath outLen =
      (copyinPathInto s userPath outLen out).map (·.result 0) := by
  unfold copyinPathBounded copyinPathInto
  split
  · rfl
  · rw [List.range_eq_range', copyinPath_eq s userPath outLen]

/-- Byte `k` of the user string can be read and does not end it. -/
def GoesOn (s : Paging.State) (userPath k : Nat) : Prop := ∃ b, b ≠ 0 ∧ UserByte s (userPath + k) b

/-- The user string ends at index `i`: every byte up to there can be read, and the first NUL is
byte `i`. -/
def EndsAt (s : Paging.State) (userPath i : Nat) : Prop :=
  (∀ k, k < i → GoesOn s userPath k) ∧ UserByte s (userPath + i) 0

theorem EndsAt.unique {i j : Nat} (hi : EndsAt s userPath i) (hj : EndsAt s userPath j) :
    i = j := by
  rcases Nat.lt_trichotomy i j with hlt | heq | hlt
  · obtain ⟨b, hb, hbyte⟩ := hj.1 i hlt
    exact absurd (hbyte.unique hi.2) hb
  · exact heq
  · obtain ⟨b, hb, hbyte⟩ := hi.1 j hlt
    exact absurd (hbyte.unique hj.2) hb

/-- How the loop can end when it goes on from index `start`: at the end of the string, at the end of
the buffer, or at a byte that cannot be read. -/
inductive PathOutcome (s : Paging.State) (userPath outLen start : Nat) (out : Nat → Byte)
    (r : PathCopy) : Prop
  | ended (i : Nat) (hstart : start ≤ i) (hi : i < outLen) (hend : EndsAt s userPath i)
      (bytes : ∀ k, k ≤ i → UserByte s (userPath + k) (r.out k))
      (rest : ∀ k, i < k → r.out k = out k)
      (reads : r.reads = (List.range' start (i + 1 - start)).map (userPath + ·))
      (err : r.err = none)
  | long (bytes : ∀ k, k < outLen → GoesOn s userPath k)
      (rest : ∀ k, outLen ≤ k → r.out k = out k)
      (reads : r.reads = (List.range' start (outLen - start)).map (userPath + ·))
      (err : r.err = some .nametoolong)
  | fault (i : Nat) (hstart : start ≤ i) (hi : i < outLen)
      (bytes : ∀ k, k < i → GoesOn s userPath k)
      (stop : ∀ b, ¬ UserByte s (userPath + i) b)
      (rest : ∀ k, i ≤ k → r.out k = out k)
      (reads : r.reads = (List.range' start (i - start)).map (userPath + ·))
      (err : r.err = some .fault)

/-- One byte more in front of what the loop does from index `i + 1` on. -/
theorem PathOutcome.cons {b : Byte} (hi : i < outLen)
    (h : PathOutcome s userPath outLen (i + 1) (Function.update out i b) r) :
    PathOutcome s userPath outLen i out { r with reads := (userPath + i) :: r.reads } := by
  have hrest : ∀ k, i < k → Function.update out i b k = out k :=
    fun k hk => Function.update_of_ne (Nat.ne_of_gt hk) _ _
  have hreads : ∀ m, i < m → r.reads = (List.range' (i + 1) (m - (i + 1))).map (userPath + ·) →
      (userPath + i) :: r.reads = (List.range' i (m - i)).map (userPath + ·) := by
    intro m hm h
    rw [h, show m - i = (m - (i + 1)) + 1 by omega, List.range'_succ, List.map_cons]
  cases h with
  | ended j hstart hj hend bytes rest reads err =>
      exact .ended j (by omega) hj hend bytes
        (fun k hk => (rest k hk).trans (hrest k (by omega))) (hreads (j + 1) (by omega) reads) err
  | long bytes rest reads err =>
      exact .long bytes (fun k hk => (rest k hk).trans (hrest k (by omega)))
        (hreads outLen hi reads) err
  | fault j hstart hj bytes stop rest reads err =>
      exact .fault j (by omega) hj bytes stop
        (fun k hk => (rest k hk).trans (hrest k (by omega))) (hreads j (by omega) reads) err

/-- The loop, when the bytes before index `i` have been copied. -/
theorem copyinPathFrom_outcome (huser : userPath < 2 ^ 32) (hlen : i + n = outLen)
    (hpos : 0 < outLen)
    (hcopied : ∀ k, k < i → out k ≠ 0 ∧ UserByte s (userPath + k) (out k))
    (h : copyinPathFrom s userPath outLen n i out = .ok r) :
    PathOutcome s userPath outLen i out r := by
  have hon : ∀ k, k < i → GoesOn s userPath k := fun k hk => ⟨out k, hcopied k hk⟩
  -- The byte before a byte that is asked for lies below the kernel half.
  have haddr : (userPath + i) % 2 ^ 32 = userPath + i := by
    cases i with
    | zero => exact Nat.mod_eq_of_lt huser
    | succ i =>
        have := (hcopied i (Nat.lt_succ_self i)).2.below
        exact Nat.mod_eq_of_lt (by unfold kernelVirtualBase at this; omega)
  induction n generalizing i out r with
  | zero =>
      obtain rfl := Except.ok.inj h
      obtain rfl : i = outLen := hlen
      refine .long hon (fun k hk => Function.update_of_ne (by omega) _ _) ?_ rfl
      rw [Nat.sub_self]
      rfl
  | succ n ih =>
      obtain ⟨ch, hch, h⟩ := bind_eq_ok.mp h
      rw [haddr] at hch h
      rcases copyin_byte (haddr ▸ Nat.mod_lt _ (by decide)) hch with ⟨b, rfl, hbyte⟩ | ⟨rfl, hnone⟩
      · dsimp only at h
        have hcopied' : ∀ k, k < i → Function.update out i b k = out k :=
          fun k hk => Function.update_of_ne (Nat.ne_of_lt hk) _ _
        split at h
        · rename_i hzero
          obtain rfl := Except.ok.inj h
          refine .ended i (Nat.le_refl _) (by omega) ⟨hon, hzero ▸ hbyte⟩ (fun k hk => ?_)
            (fun k hk => Function.update_of_ne (Nat.ne_of_gt hk) _ _) ?_ rfl
          · show UserByte s (userPath + k) (Function.update out i b k)
            rcases Nat.lt_or_eq_of_le hk with hlt | rfl
            · rw [hcopied' k hlt]
              exact (hcopied k hlt).2
            · rw [Function.update_self]
              exact hbyte
          · rw [Nat.add_sub_cancel_left]
            rfl
        · rename_i hne
          obtain ⟨r', hr', h⟩ := bind_eq_ok.mp h
          obtain rfl := Except.ok.inj h
          have hnext : ∀ k, k < i + 1 → Function.update out i b k ≠ 0 ∧
              UserByte s (userPath + k) (Function.update out i b k) := by
            intro k hk
            rcases Nat.lt_or_eq_of_le (Nat.le_of_lt_succ hk) with hlt | rfl
            · rw [hcopied' k hlt]
              exact hcopied k hlt
            · rw [Function.update_self]
              exact ⟨hne, hbyte⟩
          refine PathOutcome.cons (by omega) (ih (by omega) hnext hr'
            (fun k hk => ⟨_, hnext k hk⟩) ?_)
          have := hbyte.below
          exact Nat.mod_eq_of_lt (by unfold kernelVirtualBase at this; omega)
      · obtain rfl := Except.ok.inj h
        refine .fault i (Nat.le_refl _) (by omega) hon hnone (fun _ _ => rfl) ?_ rfl
        rw [Nat.sub_self]
        rfl

/-- The whole copy. A null path is a byte that cannot be read. -/
theorem copyinPathInto_outcome (huser : userPath < 2 ^ 32) (hlen : 2 ≤ outLen)
    (h : copyinPathInto s userPath outLen out = .ok r) :
    PathOutcome s userPath outLen 0 out r := by
  unfold copyinPathInto at h
  split at h
  · rename_i hnull
    obtain rfl : userPath = 0 := by omega
    obtain rfl := Except.ok.inj h
    exact .fault 0 (Nat.le_refl _) (by omega) (fun k hk => absurd hk (Nat.not_lt_zero k))
      (fun b hb => hb.ne_zero rfl) (fun _ _ => rfl) rfl rfl
  · exact copyinPathFrom_outcome huser (Nat.zero_add _) (by omega)
      (fun k hk => absurd hk (Nat.not_lt_zero k)) h

/-- The copy returns, or the kernel stops at a page table that the window does not reach. -/
theorem copyinPathInto_raises (s : Paging.State) (userPath outLen : Nat) (out : Nat → Byte) :
    Raises (fun e => e = windowPanic ∧ ¬ Uaccess.InWindow s)
      (copyinPathInto s userPath outLen out) := by
  have hloop : ∀ n i out, Raises (fun e => e = windowPanic ∧ ¬ Uaccess.InWindow s)
      (copyinPathFrom s userPath outLen n i out) := by
    intro n
    induction n with
    | zero => exact fun i out => raises_ok _
    | succ n ih =>
        intro i out
        refine (copyin_raises (by decide) (Nat.mod_lt _ (by decide))).bind fun ch _ => ?_
        split
        · dsimp only
          split
          · exact raises_ok _
          · exact (ih _ _).bind fun r _ => raises_ok _
        · exact raises_ok _
  unfold copyinPathInto
  split
  · exact raises_ok _
  · exact hloop _ _ _

end Path

/-! ## Comparing the path -/

/-- The loop of `path_matches_allowed`, where `none` is a byte outside one of the two arrays. -/
def pathMatchesLoop : List Byte → List Byte → Option Bool
  | c :: path, a :: allowed =>
      if c ≠ a then some false else if c = 0 then some true else pathMatchesLoop path allowed
  | _, _ => none

theorem pathMatchesAllowed_eq (path allowed : List Byte) :
    pathMatchesAllowed path allowed = (pathMatchesLoop path allowed).getD false := by
  fun_induction pathMatchesLoop path allowed with
  | case1 c path a allowed hne => rw [pathMatchesAllowed, if_pos hne]; rfl
  | case2 path a allowed hne => rw [pathMatchesAllowed, if_neg hne]; rfl
  | case3 c path a allowed hne hzero ih => rw [pathMatchesAllowed, if_neg hne, if_neg hzero, ih]
  | case4 path allowed hcons =>
      unfold pathMatchesAllowed
      split
      · rename_i c path a allowed
        exact absurd rfl (hcons c path a allowed rfl)
      · rfl

/-- On strings that end, the loop stays inside both and decides whether they are equal. -/
theorem pathMatchesLoop_eq {path allowed : List Byte} (rest : List Byte) (hpath : 0 ∉ path)
    (hallowed : 0 ∉ allowed) : pathMatchesLoop (path ++ 0 :: rest) (allowed ++ [0]) =
      some (decide (path = allowed)) := by
  induction path generalizing allowed with
  | nil =>
      cases allowed with
      | nil => rfl
      | cons a allowed =>
          have hne : (0 : Byte) ≠ a := fun h => hallowed (h ▸ List.mem_cons_self)
          rw [List.nil_append, List.cons_append, pathMatchesLoop, if_pos hne]
          rfl
  | cons c path ih =>
      have hc : c ≠ 0 := fun h => hpath (h ▸ List.mem_cons_self)
      cases allowed with
      | nil =>
          rw [List.nil_append, List.cons_append, pathMatchesLoop, if_pos hc]
          rfl
      | cons a allowed =>
          have hrest := ih (fun h => hpath (List.mem_cons_of_mem c h))
            (fun h => hallowed (List.mem_cons_of_mem a h))
          rw [List.cons_append, List.cons_append, pathMatchesLoop, hrest]
          by_cases hca : c = a
          · rw [if_neg (not_not.mpr hca), if_neg hc]
            exact congrArg some (decide_eq_decide.mpr (by simp [hca]))
          · rw [if_pos hca, decide_eq_false fun h => hca (List.cons.inj h).1]

/-! ## The contract of the copy -/

/-- The contract of `copyin_path_bounded` and of the comparison after it. -/
structure PathSpec (s : Paging.State) (userPath outLen : Nat) (out : Nat → Byte) (r : PathCopy) :
    Prop where
  success : r.err = none ↔ ∃ i, i < outLen ∧ EndsAt s userPath i
  holds : ∀ i, i < outLen → EndsAt s userPath i →
    (∀ k, k ≤ i → UserByte s (userPath + k) (r.out k)) ∧ ∀ k, i < k → r.out k = out k
  compares : ∀ i, i < outLen → EndsAt s userPath i →
    pathMatchesLoop ((List.range outLen).map r.out) execAllowedPath =
      some (decide ((List.range (i + 1)).map r.out = execAllowedPath))
  tooLong : r.err = some .nametoolong ↔ ∀ k, k < outLen → GoesOn s userPath k
  otherwise : r.err = none ∨ r.err = some .nametoolong ∨ r.err = some .fault
  bounds : ∀ k, outLen ≤ k → r.out k = out k
  reads : ∀ a ∈ r.reads, ∃ k, k < outLen ∧ a = userPath + k ∧ ∀ j, j < k → GoesOn s userPath j

section Spec

variable {s : Paging.State} {userPath outLen i : Nat} {out : Nat → Byte} {r : PathCopy}

/-- A string in the buffer, with what comes after it. -/
theorem range_map_split (f : Nat → Byte) (hi : i < outLen) (hzero : f i = 0) :
    ∃ rest, (List.range outLen).map f = (List.range i).map f ++ 0 :: rest := by
  obtain ⟨m, rfl⟩ : ∃ m, outLen = i + (m + 1) := ⟨outLen - i - 1, by omega⟩
  refine ⟨(List.range m).map fun k => f (i + (k + 1)), ?_⟩
  rw [List.range_add, List.map_append, List.range_succ_eq_map]
  simp [hzero, Function.comp_def]

/-- The comparison after a string that ends at index `i`. -/
theorem compares_of_bytes (hi : i < outLen) (hend : EndsAt s userPath i)
    (hbytes : ∀ k, k ≤ i → UserByte s (userPath + k) (r.out k)) :
    pathMatchesLoop ((List.range outLen).map r.out) execAllowedPath =
      some (decide ((List.range (i + 1)).map r.out = execAllowedPath)) := by
  have hzero : r.out i = 0 := (hbytes i (Nat.le_refl i)).unique hend.2
  have hpath : 0 ∉ (List.range i).map r.out := by
    intro h
    obtain ⟨k, hk, hk0⟩ := List.mem_map.mp h
    obtain ⟨b, hb, hbyte⟩ := hend.1 k (List.mem_range.mp hk)
    have := (hbytes k (Nat.le_of_lt (List.mem_range.mp hk))).unique hbyte
    exact hb (this.symm.trans hk0)
  obtain ⟨rest, hsplit⟩ := range_map_split r.out hi hzero
  unfold execAllowedPath
  rw [hsplit, pathMatchesLoop_eq rest hpath (by decide), List.range_succ, List.map_append,
    List.map_singleton, hzero]
  exact congrArg some (decide_eq_decide.mpr (List.append_left_inj _).symm)

theorem PathOutcome.spec (h : PathOutcome s userPath outLen 0 out r) :
    PathSpec s userPath outLen out r := by
  have hreads : ∀ m, r.reads = (List.range' 0 (m - 0)).map (userPath + ·) → m ≤ outLen →
      (∀ j, j + 1 < m → GoesOn s userPath j) → ∀ a ∈ r.reads, ∃ k, k < outLen ∧
        a = userPath + k ∧ ∀ j, j < k → GoesOn s userPath j := by
    intro m hm hle hon a ha
    rw [hm, Nat.sub_zero, ← List.range_eq_range'] at ha
    obtain ⟨k, hk, rfl⟩ := List.mem_map.mp ha
    rw [List.mem_range] at hk
    exact ⟨k, by omega, rfl, fun j hj => hon j (by omega)⟩
  cases h with
  | ended i hstart hi hend bytes rest reads err =>
      have honly : ∀ j, EndsAt s userPath j → j = i := fun j hj => hj.unique hend
      refine ⟨⟨fun _ => ⟨i, hi, hend⟩, fun _ => err⟩, ?_, ?_, ?_, .inl err, ?_,
        hreads (i + 1) reads hi fun j hj => hend.1 j (by omega)⟩
      · intro j _ hj
        rw [honly j hj]
        exact ⟨bytes, rest⟩
      · intro j _ hj
        rw [honly j hj]
        exact compares_of_bytes hi hend bytes
      · rw [err]
        refine ⟨fun h => (by cases h), fun h => ?_⟩
        obtain ⟨b, hb, hbyte⟩ := h i hi
        exact absurd (hbyte.unique hend.2) hb
      · exact fun k hk => rest k (by omega)
  | long bytes rest reads err =>
      have hnever : ∀ j, j < outLen → ¬ EndsAt s userPath j := by
        intro j hj hend
        obtain ⟨b, hb, hbyte⟩ := bytes j hj
        exact hb (hbyte.unique hend.2)
      refine ⟨⟨fun h => ?_, fun ⟨j, hj, hend⟩ => absurd hend (hnever j hj)⟩,
        fun j hj hend => absurd hend (hnever j hj), fun j hj hend => absurd hend (hnever j hj),
        ⟨fun _ => bytes, fun _ => err⟩, .inr (.inl err), rest,
        hreads outLen reads (Nat.le_refl _) fun j hj => bytes j (by omega)⟩
      rw [err] at h
      cases h
  | fault i hstart hi bytes stop rest reads err =>
      have hnever : ∀ j, j < outLen → ¬ EndsAt s userPath j := by
        intro j hj hend
        rcases Nat.lt_trichotomy j i with hlt | rfl | hlt
        · obtain ⟨b, hb, hbyte⟩ := bytes j hlt
          exact hb (hbyte.unique hend.2)
        · exact stop 0 hend.2
        · obtain ⟨b, hb, hbyte⟩ := hend.1 i hlt
          exact stop b hbyte
      refine ⟨⟨fun h => ?_, fun ⟨j, hj, hend⟩ => absurd hend (hnever j hj)⟩,
        fun j hj hend => absurd hend (hnever j hj), fun j hj hend => absurd hend (hnever j hj),
        ⟨fun h => ?_, fun h => ?_⟩, .inr (.inr err), fun k hk => rest k (by omega),
        hreads i reads (Nat.le_of_lt hi) fun j hj => bytes j (by omega)⟩
      · rw [err] at h
        cases h
      · rw [err] at h
        cases h
      · obtain ⟨b, hb, hbyte⟩ := h i hi
        exact absurd hbyte (stop b)

end Spec

/-- For every state of memory and page tables, every user pointer, every length of the buffer from 2
on and whatever the buffer held: the copy returns, or the kernel stops at a page table out of reach,
and what it returns meets the contract. -/
theorem copyinPathInto_exact (s : Paging.State) {userPath outLen : Nat} (out : Nat → Byte)
    (huser : userPath < 2 ^ 32) (hlen : 2 ≤ outLen) :
    (∀ e, copyinPathInto s userPath outLen out = .error e →
      e = windowPanic ∧ ¬ Uaccess.InWindow s) ∧
    ∀ r, copyinPathInto s userPath outLen out = .ok r → PathSpec s userPath outLen out r :=
  ⟨copyinPathInto_raises s userPath outLen out,
    fun _ h => (copyinPathInto_outcome huser hlen h).spec⟩

/-- A user page at `0x1000` that holds the allowed path. -/
def pathPage : Paging.State :=
  (Uaccess.twoPages true).withMem fun a =>
    if 0x5000 ≤ a ∧ a < 0x5011 then execAllowedPath.getD (a - 0x5000) 0
    else (Uaccess.twoPages true).pmm.mem a

/-- The allowed path is found. -/
theorem copyinPathInto_exact_allowed : ∃ r,
    copyinPathInto pathPage 0x1000 execPathMax (fun _ => 0xFF) = .ok r ∧
      PathSpec pathPage 0x1000 execPathMax (fun _ => 0xFF) r ∧ r.err = none ∧
      pathMatchesLoop ((List.range execPathMax).map r.out) execAllowedPath = some true := by
  obtain ⟨r, hret, htest⟩ := exists_of_okAnd
    (e := copyinPathInto pathPage 0x1000 execPathMax (fun _ => 0xFF))
    (p := fun r => decide (r.err = none ∧
      pathMatchesLoop ((List.range execPathMax).map r.out) execAllowedPath = some true))
    (by decide +kernel)
  have htest := of_decide_eq_true htest
  exact ⟨r, hret, (copyinPathInto_exact pathPage _ (by decide) (by decide)).2 r hret, htest⟩

end Unidos.Sched
