import Lumin.Proc.UserTask

/-!
# The frames of a user task

What a user task owns, and what becomes of it.  The frame of the user stack is on
record twice: as `ustack_page` of the task and as a leaf of its page tables.  Both
`free_task_resources` and `task_exec` free it from both records.  `task_exec` moreover
walks the slots from `0` on, and slot `0` belongs to the kernel.
-/

namespace Lumin.Proc

open Lumin.Lib Lumin.Mm

variable {η : Type} {K : NodeHeap η} {own : η → List Nat} {file : ElfFile}
  {args : List (List UInt8)} {m m' : Machine}
  {mem : Mem} {phys pml4 cr3 x : Nat} {held : List Nat} {h h' : η} {S : Nat → Prop}

/-! ## The stacks -/

/-- The bytes of the strings with their terminators. -/
def argBytes (args : List (List UInt8)) : Nat := (args.map fun s => s.length + 1).sum

/-- The strings, the pointers to them, the terminator and the count fit into a page. -/
def ArgsFit (args : List (List UInt8)) : Prop :=
  argBytes (args.take 64) + 8 * (args.take 64).length + 16 ≤ 0x1000

instance (args : List (List UInt8)) : Decidable (ArgsFit args) :=
  inferInstanceAs (Decidable (_ ≤ _))

/-- The address of an offset in a frame. -/
theorem frame_offset {off : Nat} (hphys : IsFrame phys) (hoff : off < 0x1000) :
    u64 (phys + off) = phys + off := by
  obtain ⟨hmod, -, hlt⟩ := hphys
  exact u64_of_lt (by omega)

theorem wrLE_frame {off v : Nat} (hphys : IsFrame phys) (hoff : off + 8 ≤ 0x1000)
    (hx : pageDown x ≠ phys) :
    wrLE mem (u64 (phys + off)) 8 v x = mem x := by
  rw [frame_offset hphys (by omega)]
  unfold wrLE
  rw [if_neg]
  rintro ⟨hlo, hhi⟩
  exact hx (pageDown_of_mem_page hphys.1 (by omega) (by omega))

/-- The strings go into the page. -/
theorem pushStrings_spec (mem : Mem) (args : List (List UInt8)) (hphys : IsFrame phys)
    (hfit : argBytes args ≤ 0x1000) :
    (pushStrings mem phys args).2.1 = 0x1000 - argBytes args ∧
      (pushStrings mem phys args).2.2.length = args.length ∧
      ∀ x, pageDown x ≠ phys → (pushStrings mem phys args).1 x = mem x := by
  induction args with
  | nil => exact ⟨rfl, rfl, fun _ _ => rfl⟩
  | cons s args ih =>
    have hbytes : argBytes (s :: args) = s.length + 1 + argBytes args := by simp [argBytes]
    rw [hbytes] at hfit
    obtain ⟨hoff, hlen, hmem⟩ := ih (by omega)
    have hstep : pushStrings mem phys (s :: args) =
        (wrBytes (pushStrings mem phys args).1
          (u64 (phys + sub64 (pushStrings mem phys args).2.1 (s.length + 1)))
            (s ++ [0]), sub64 (pushStrings mem phys args).2.1 (s.length + 1),
          u64 (US_VADDR - 0x1000 + sub64 (pushStrings mem phys args).2.1 (s.length + 1)) ::
            (pushStrings mem phys args).2.2) := rfl
    have hsub : sub64 (pushStrings mem phys args).2.1 (s.length + 1) =
        0x1000 - (s.length + 1 + argBytes args) := by
      rw [hoff, sub64_of_le (by omega) (by omega)]
      omega
    rw [hstep, hsub, hbytes]
    refine ⟨rfl, by simp [hlen], fun x hx => ?_⟩
    rw [frame_offset hphys (by omega)]
    dsimp only
    unfold wrBytes
    rw [if_neg, hmem x hx]
    rintro ⟨hlo, hhi⟩
    simp only [List.length_append, List.length_singleton] at hhi
    exact hx (pageDown_of_mem_page hphys.1 (by omega) (by omega))

/-- So do the words. -/
theorem pushWords_spec {r : Mem × Nat} (hphys : IsFrame phys) (ws : List Nat)
    (hlo : 8 * ws.length ≤ r.2)
    (hhi : r.2 ≤ 0x1000) :
    (ws.foldr (fun v r => pushWord phys r v) r).2 = r.2 - 8 * ws.length ∧
      ∀ x, pageDown x ≠ phys → (ws.foldr (fun v r => pushWord phys r v) r).1 x = r.1 x := by
  induction ws with
  | nil => exact ⟨rfl, fun _ _ => rfl⟩
  | cons w ws ih =>
    rw [List.length_cons] at hlo
    obtain ⟨hoff, hmem⟩ := ih (by omega)
    rw [List.foldr_cons, List.length_cons]
    generalize ws.foldr (fun v r => pushWord phys r v) r = r' at hoff hmem
    have hsub : sub64 r'.2 8 = r.2 - 8 * (ws.length + 1) := by
      rw [hoff, sub64_of_le (by omega) (by omega)]
      omega
    unfold pushWord
    dsimp only
    refine ⟨hsub, fun x hx => ?_⟩
    rw [hsub, wrLE_frame hphys (by omega) hx, hmem x hx]

/-- `setup_user_stack` writes into the page of the stack. -/
theorem setupUserStack_outside (hphys : IsFrame phys) (hfit : ArgsFit args)
    (hx : pageDown x ≠ phys) :
    (setupUserStack mem phys args).1 x = mem x := by
  unfold ArgsFit at hfit
  obtain ⟨hoff, hlen, hmem⟩ := pushStrings_spec mem (args.take 64) hphys (by omega)
  unfold setupUserStack
  dsimp only
  -- The terminator, the pointers and the count are one run of words.
  have hwords :=
    pushWords_spec
    (r := ((pushStrings mem phys (args.take 64)).1, (pushStrings mem phys (args.take 64)).2.1))
    hphys ((args.take 64).length :: ((pushStrings mem phys (args.take 64)).2.2 ++ [0]))
    (by simp only [List.length_cons, List.length_append, hlen, hoff, List.length_nil]; omega)
    (by rw [hoff]; omega)
  have hsame := hwords.2 x hx
  rw [List.foldr_cons, List.foldr_append] at hsame
  rw [← hmem x hx, ← hsame]
  rfl

/-- The top of a kernel stack is in the frame that `pmm_alloc_pages` took first. -/
theorem kstack_word {highest i : Nat} (hframe : IsFrame highest) (hi : i < 20) :
    sub64 (u64 (sub64 highest 0x3000 + KSTACK_SIZE)) (8 * (20 - i)) =
      highest + (0x1000 - 8 * (20 - i)) := by
  obtain ⟨hmod, -, hlt⟩ := hframe
  unfold sub64 u64 KSTACK_SIZE
  omega

/-- The first frame of a kernel stack goes there. -/
theorem initKstack_outside {highest entry rsp : Nat} (hframe : IsFrame highest)
    (hx : pageDown x ≠ highest) :
    initKstack mem (sub64 highest 0x3000) entry rsp x = mem x := by
  have hfold : ∀ (ws : List (Nat × Nat)) (mem : Mem), (∀ w ∈ ws, w.2 < 20) →
      ws.foldl (fun mem w =>
        wrLE mem (sub64 (u64 (sub64 highest 0x3000 + KSTACK_SIZE)) (8 * (20 - w.2))) 8 w.1)
        mem x = mem x := by
    intro ws
    induction ws with
    | nil => exact fun _ _ => rfl
    | cons w ws ih =>
      intro mem hidx
      have hw := hidx w (by simp)
      rw [List.foldl_cons, ih _ fun v hv => hidx v (List.mem_cons_of_mem w hv),
        kstack_word hframe hw]
      unfold wrLE
      rw [if_neg]
      rintro ⟨hlo, hhi⟩
      exact hx (pageDown_of_mem_page hframe.1 (by omega) (by omega))
  refine hfold _ mem fun w hw => ?_
  have hlt := List.snd_lt_of_mem_zipIdx hw
  simpa using hlt

/-- The loop of `pmm_alloc_pages` takes frames off the lists. -/
theorem allocRestOn_spec {highest : Nat} (hnz : ∀ f ∈ popOrder m.pmm, f ≠ 0) (left i : Nat)
    (heq : allocRestOn highest left i m = (true, m')) :
    ∃ popped, popOrder m.pmm = popped ++ popOrder m'.pmm ∧ m'.mem = m.mem := by
  induction left generalizing i m with
  | zero =>
    cases heq
    exact ⟨[], rfl, rfl⟩
  | succ left ih =>
    rw [allocRestOn] at heq
    rcases allocFrame_spec hnz with ⟨-, halloc⟩ | ⟨p, rest, pmm, hpop, halloc, hrest⟩
    · rw [halloc] at heq
      cases heq
    · rw [halloc] at heq
      dsimp only at heq
      rw [if_neg (hnz p (by simp [hpop]))] at heq
      have hnz' : ∀ f ∈ popOrder ({ m with pmm := pmm } : Machine).pmm, f ≠ 0 := by
        intro f hf
        rw [show popOrder ({ m with pmm := pmm } : Machine).pmm = rest from hrest] at hf
        exact hnz f (by simp [hpop, hf])
      obtain ⟨popped, hpopped, hmem⟩ := ih hnz' (i + 1) heq
      refine ⟨p :: popped, ?_, hmem⟩
      rw [hpop, List.cons_append, ← hpopped]
      exact congrArg (p :: ·) hrest.symm

/-- `pmm_alloc_pages`, when it succeeds. -/
theorem allocFrames_spec {own : List Nat} {k n : Nat} (hspace : Space m pml4 own held)
    (hn : n ≠ 0)
    (heq : allocFrames m n = (k, m')) (hk : k ≠ 0) :
    ∃ highest held', IsFrame highest ∧ k = sub64 highest ((n - 1) * 0x1000) ∧ m'.mem = m.mem ∧
      Space m' pml4 own (highest :: held') ∧ held ⊆ held' ∧ highest ∉ held := by
  unfold allocFrames at heq
  rw [if_neg hn] at heq
  rcases hspace.alloc with ⟨halloc, -⟩ | ⟨highest, m₁, halloc, hframe, hheld, -, hmem, -, hspace₁⟩
  · rw [halloc] at heq
    dsimp only at heq
    rw [if_pos rfl] at heq
    exact absurd (congrArg Prod.fst heq).symm hk
  · rw [halloc] at heq
    dsimp only at heq
    rw [if_neg hframe.2.1.ne'] at heq
    obtain ⟨m₂, hm₂⟩ : ∃ m₂ : Machine, m₂ =
        { m₁ with pmm := { m₁.pmm with freePagesTotal := sub64 m₁.pmm.freePagesTotal (n -
          1) } } := ⟨_, rfl⟩
    have hpop₂ : popOrder m₂.pmm = popOrder m₁.pmm := by rw [hm₂]; rfl
    have hmem₂ : m₂.mem = m₁.mem := by rw [hm₂]
    rw [← hm₂] at heq
    rcases hrest : allocRestOn highest (n - 1) 1 m₂ with ⟨ok, m₃⟩
    rw [hrest] at heq
    cases ok with
    | false => exact absurd (congrArg Prod.fst heq).symm hk
    | true =>
      cases heq
      have hnz : ∀ f ∈ popOrder m₂.pmm, f ≠ 0 := by
        rw [hpop₂]
        exact hspace₁.freeOk.ne_zero
      obtain ⟨popped, hpop, hmem₃⟩ := allocRestOn_spec hnz (n - 1) 1 hrest
      rw [hpop₂] at hpop
      refine ⟨highest, popped ++ held, hframe, rfl, by rw [hmem₃, hmem₂, hmem], ?_, ?_, hheld⟩
      · refine (hspace₁.popped hpop (by rw [hmem₃, hmem₂])).of_subset fun f hf => ?_
        simp only [List.mem_cons, List.mem_append] at hf ⊢
        tauto
      · exact List.subset_append_right _ _

/-! ## Building a task -/

/-- A stack that `mapStack` has mapped. -/
theorem mapStack_some {ustack rsp : Nat} (heq : mapStack m pml4 args = some (ustack, rsp, m')) :
    ustack ≠ 0 ∧ ∃ m₁, allocFrame m = (ustack, m₁) ∧
      vmmMapPage { m₁ with mem := (setupUserStack m₁.mem ustack args).1 } pml4 STACK_VADDR ustack
        (PAGE_USER ||| PAGE_WRITE) = (0, m') := by
  unfold mapStack at heq
  split at heq
  rename_i p m₁ halloc
  split at heq
  · cases heq
  rename_i hp
  split at heq
  rename_i mem₂ rsp₂ hsetup
  split at heq
  rename_i r m₂ hmap
  split at heq
  · cases heq
  · rename_i hr
    simp only [Option.some.injEq, Prod.mk.injEq] at heq
    obtain ⟨rfl, -, rfl⟩ := heq
    refine ⟨hp, m₁, halloc, ?_⟩
    rw [hsetup, hmap, not_not.mp hr]

/-- The stack is mapped, and what was mapped and held stays. -/
theorem mapStack_spec {own : List Nat} {ustack rsp : Nat} (hspace : Space m pml4 own held)
    (hleaves : LeavesHeld S m pml4 held) (hfit : ArgsFit args)
    (heq : mapStack m pml4 args = some (ustack, rsp, m')) :
    IsFrame ustack ∧ Space m' pml4 own (ustack :: held) ∧ LeavesHeld S m' pml4 (ustack :: held) ∧
      translate m'.mem pml4 STACK_VADDR =
        some (0, ustack ||| (PAGE_USER ||| PAGE_WRITE) ||| PAGE_PRESENT) ∧
      ∀ x, pageDown x ∈ held → m'.mem x = m.mem x := by
  obtain ⟨hustack, m₁, halloc, hmap⟩ := mapStack_some heq
  have houtside : ∀ x, IsFrame ustack → pageDown x ≠ ustack →
      (setupUserStack m₁.mem ustack args).1 x = m₁.mem x :=
        fun x hframe hx => setupUserStack_outside hframe hfit hx
  generalize (setupUserStack m₁.mem ustack args).1 = mem₂ at hmap houtside
  rcases hspace.alloc with ⟨hnone, -⟩ | ⟨p, m₂, hsome, hframe, hheld, htables, hmem, -, hspace₁⟩
  · exact absurd (congrArg Prod.fst (halloc.symm.trans hnone)) hustack
  · obtain ⟨rfl, rfl⟩ : p = ustack ∧ m₂ = m₁ := Prod.mk.inj (hsome.symm.trans halloc)
    have hspace₂ : Space { m₂ with mem := mem₂ } pml4 own (p :: held) :=
      hspace₁.write (by simp) fun x hx => houtside x hframe hx
    have htranslate₂ : ∀ virt, translate mem₂ pml4 virt = translate m.mem pml4 virt := by
      refine fun virt => walkFrom_congr hspace.tree.aligned fun x hx => ?_
      rw [houtside x hframe fun heq => htables (heq ▸ hx), hmem]
    have hleaves₂ : LeavesHeld S { m₂ with mem := mem₂ } pml4 (p :: held) :=
      (hleaves.of_subset (List.subset_cons_self p held)).congr htranslate₂
    obtain ⟨r, m₃, new, hmap', hext, hspace₃, hkeep, hres⟩ :=
      hspace₂.map STACK_VADDR hframe (show PAGE_USER ||| PAGE_WRITE < 2 ^ 12 by decide)
    obtain ⟨rfl, rfl⟩ : r = 0 ∧ m₃ = m' := Prod.mk.inj (hmap'.symm.trans hmap)
    rcases hres with ⟨-, -, hstack⟩ | ⟨hfail, -⟩
    · refine ⟨hframe, hspace₃, hleaves₂.map hext hframe (by decide) List.mem_cons_self hstack,
        hstack, fun x hx => ?_⟩
      rw [hkeep x (List.mem_cons_of_mem p hx)]
      show mem₂ x = m.mem x
      rw [houtside x hframe fun heq => hheld (heq ▸ hx), hmem]
    · exact absurd hfail (by decide)

/-- A program in a new PML4: its pages are held, and the page of the current PML4 is as
it was. -/
theorem loadUser_spec (hsound : K.Sound own) (hspace : Space m cr3 (own h) held) {entry : Nat}
    (heq : loadUser K h m cr3 file = some (entry, pml4, h', m')) :
    ∃ held', Space m' pml4 (own h') held' ∧ LeavesHeld UserSlot m' pml4 held' ∧ cr3 ∈ held' ∧
      pml4 ≠ 0 ∧ ∀ x, pageDown x = cr3 → m'.mem x = m.mem x := by
  unfold loadUser at heq
  rcases vmmCreatePml4_spec hspace with hnone | ⟨p, m₁, hcreate, hframe, hpop, houtside, hnew, -,
      htranslate, -, -⟩
  · rw [hnone] at heq
    cases heq
  · rw [hcreate] at heq
    dsimp only at heq
    rw [if_neg hframe.2.1.ne'] at heq
    rcases hload : elfLoad K file p h m₁ with ⟨entry', h₁, m₂⟩
    rw [hload] at heq
    dsimp only at heq
    split at heq
    · cases heq
    · rename_i hentry
      simp only [Option.some.injEq, Prod.mk.injEq] at heq
      obtain ⟨rfl, rfl, rfl, rfl⟩ := heq
      have hleaves : LeavesHeld UserSlot m₁ p (cr3 :: held) := by
        intro virt l e huser he
        rw [htranslate virt, if_pos huser] at he
        cases he
      have hkept : ∀ hdr, Kept own p (FilePage file hdr) fun s held =>
          LeavesHeld UserSlot s.machine p held ∧ cr3 ∈ held ∧ ∀ x, pageDown x = cr3 →
            s.machine.mem x = m₁.mem x :=
        fun hdr => (leavesHeld_kept UserSlot _).and (heldFrame_kept cr3 m₁ _)
      obtain ⟨_, held', _, _, -, hspace', ⟨hleaves', hcr3, hmem⟩, -⟩ :=
        elfLoad_loaded hsound hkept hnew ⟨hleaves, by simp, fun _ _ => rfl⟩ hentry hload
      refine ⟨held', hspace', hleaves', hcr3, hframe.2.1.ne', fun x hx => ?_⟩
      rw [hmem x hx]
      refine houtside x ?_
      rw [hx]
      rintro rfl
      exact hspace.pool.apart cr3 (by rw [hpop]; simp)
        (List.mem_append_left _ (mem_tables_self _ _ _))

/-- What `alloc_task` gives back is not part of the new address space, and the free lists
have it once. -/
structure ReapSafe (own : List Nat) (pml4 : Nat) (m m' : Machine) : Prop where
  tables : ∀ x, pageDown x ∈ tables m.mem 3 pml4 → m'.mem x = m.mem x
  pool : PoolOk m' own (Mm.tables m.mem 3 pml4 ++ leafFrames m.mem 1 pml4)

/-- A slot that has nothing left of a former task. -/
theorem reapSafe_empty {own : List Nat} (hspace : Space m pml4 own held)
    (hleaves : LeavesHeld UserSlot m pml4 held) :
    ReapSafe own pml4 m (allocTaskOn { pml4 := 0, kstackPage := 0, ustackPage := 0 } m) := by
  refine ⟨fun _ _ => rfl, hspace.pool.of_subset fun f hf => ?_⟩
  rcases List.mem_append.mp hf with hf | hf
  · exact List.mem_append_left _ hf
  · exact List.mem_append_right _ (leafFrames_subset hleaves hf)

/-- The leaf entry of a stack frame. -/
def stackEntry (ustack : Nat) : Nat := ustack ||| (PAGE_USER ||| PAGE_WRITE) ||| PAGE_PRESENT

/-- A task that `task_create_user` has built: its pages are held frames, and the stack is
one of them. -/
theorem taskCreateUserOn_spec {t : TaskFrames} {slot : TaskFrames} (hsound : K.Sound own)
    (hspace : Space m cr3 (own h) held) (hfit : ArgsFit args)
    (hreap : ∀ entry pml4 h' m', loadUser K h m cr3 file = some (entry, pml4, h', m') →
      ReapSafe (own h') pml4 m' (allocTaskOn slot m'))
    (heq : taskCreateUserOn K h m cr3 slot file args = some (t, h', m')) :
    ∃ held', t.pml4 ≠ 0 ∧ IsFrame t.ustackPage ∧ Space m' t.pml4 [] held' ∧
        LeavesHeld UserSlot m' t.pml4 held' ∧
      translate m'.mem t.pml4 STACK_VADDR = some (0, stackEntry t.ustackPage) := by
  unfold taskCreateUserOn at heq
  cases hload : loadUser K h m cr3 file with
  | none =>
    rw [hload] at heq
    cases heq
  | some r =>
    obtain ⟨entry, pml4, h₁, m₁⟩ := r
    obtain ⟨held₁, hspace₁, hleaves₁, -, hpml4, -⟩ := loadUser_spec hsound hspace hload
    have hsafe := hreap entry pml4 h₁ m₁ hload
    rw [hload] at heq
    dsimp only at heq
    generalize allocTaskOn slot m₁ = m₂ at hsafe heq
    have hspace₂ : Space m₂ pml4 (own h₁) (leafFrames m₁.mem 1 pml4) :=
      hspace₁.congr hsafe.tables hsafe.pool fun f hf =>
        hspace₁.apart f (leafFrames_subset hleaves₁ hf)
    have hleaves₂ : LeavesHeld UserSlot m₂ pml4 (leafFrames m₁.mem 1 pml4) :=
      (leavesHeld_leafFrames hleaves₁).congr (hspace₁.translate_congr hsafe.tables)
    rcases hkstack : allocFrames m₂ KSTACK_PAGES with ⟨kstack, m₃⟩
    rw [hkstack] at heq
    dsimp only at heq
    split at heq
    · cases heq
    · rename_i hk
      obtain ⟨highest, held₃, hframe, hkeq, hmem₃, hspace₃, hheld₃, hnot⟩ :=
        allocFrames_spec hspace₂ (by decide) hkstack hk
      have hleaves₃ : LeavesHeld UserSlot m₃ pml4 (highest :: held₃) :=
        (hleaves₂.of_subset fun f hf => List.mem_cons_of_mem highest (hheld₃ hf)).congr
          fun virt => by rw [hmem₃]
      cases hstack : mapStack m₃ pml4 args with
      | none =>
        rw [hstack] at heq
        cases heq
      | some r =>
        obtain ⟨ustack, rsp, m₄⟩ := r
        obtain ⟨hustack, hspace₄, hleaves₄, hsome, -⟩ :=
          mapStack_spec hspace₃ hleaves₃ hfit hstack
        rw [hstack] at heq
        simp only [Option.some.injEq, Prod.mk.injEq] at heq
        obtain ⟨rfl, rfl, rfl⟩ := heq
        have houtside :
            ∀ x, pageDown x ≠ highest → initKstack m₄.mem kstack entry rsp x = m₄.mem x := by
          intro x hx
          rw [hkeq]
          exact initKstack_outside hframe hx
        generalize initKstack m₄.mem kstack entry rsp = mem₅ at houtside ⊢
        have hhighest : highest ∈ ustack :: highest :: held₃ := by simp
        have htables : ∀ x, pageDown x ∈ tables m₄.mem 3 pml4 → mem₅ x = m₄.mem x :=
          fun x hx => houtside x fun heq => hspace₄.apart highest hhighest (heq ▸ hx)
        have htranslate : ∀ virt, translate mem₅ pml4 virt = translate m₄.mem pml4 virt :=
          fun virt => walkFrom_congr hspace₄.tree.aligned htables
        refine ⟨ustack :: highest :: held₃, hpml4, hustack,
          (hspace₄.write hhighest houtside).forgetHeap,
          hleaves₄.congr htranslate, ?_⟩
        show translate mem₅ pml4 STACK_VADDR = some (0, stackEntry ustack)
        rw [htranslate, hsome, stackEntry]

/-! ## Growing it -/

/-- Between its calls of `SYS_BRK`, the rest of the system leaves the tables of the task
alone and keeps its frames out of the allocator. -/
def GrowGuard (s : BrkState) : BrkOp → Prop
  | .brk _ => True
  | .other machine =>
    (∀ x, pageDown x ∈ tables s.machine.mem 3 s.pml4 → machine.mem x = s.machine.mem x) ∧
      FreeOk machine (tables s.machine.mem 3 s.pml4 ++ leafFrames s.machine.mem 1 s.pml4)

/-- The pages of the task are held frames, and the stack is one of them. -/
structure GrowInv (pml4 ustack : Nat) (s : BrkState) : Prop where
  pml4 : s.pml4 = pml4
  space : ∃ held, Space s.machine s.pml4 [] held ∧ LeavesHeld UserSlot s.machine s.pml4 held
  stack : translate s.machine.mem s.pml4 STACK_VADDR = some (0, stackEntry ustack)

theorem GrowInv.step {ustack : Nat} {s s' : BrkState} {o : BrkOp} (hinv : GrowInv pml4 ustack s)
    (hguard : GrowGuard s o) (hstep : brkStep s o = some s') : GrowInv pml4 ustack s' := by
  obtain ⟨held, hspace, hleaves⟩ := hinv.space
  cases o with
  | brk newBrk =>
    cases hstep
    obtain ⟨hpml4, hmachine | ⟨n, virt, hvirt, hmachine⟩⟩ := sysBrk_machine s newBrk
    · refine ⟨hpml4.trans hinv.pml4, ⟨held, ?_, ?_⟩, ?_⟩
      · rw [hmachine, hpml4]
        exact hspace
      · rw [hmachine, hpml4]
        exact hleaves
      · rw [hmachine, hpml4]
        exact hinv.stack
    · obtain ⟨mapped, m', held', hloop, hspace', -, hmono, hleaves', -⟩ :=
        brkLoop_spec hspace n virt hvirt
      rw [hloop] at hmachine
      refine ⟨hpml4.trans hinv.pml4, ⟨held', ?_, ?_⟩, ?_⟩
      · rw [hmachine, hpml4]
        exact hspace'
      · rw [hmachine, hpml4]
        exact hleaves' UserSlot hleaves
      · rw [hmachine, hpml4]
        exact hmono _ _ hinv.stack
  | other machine =>
    cases hstep
    obtain ⟨hpages, hfree⟩ := hguard
    have htranslate := hspace.translate_congr hpages
    refine ⟨hinv.pml4, ⟨leafFrames s.machine.mem 1 s.pml4, ?_, ?_⟩,
      (htranslate _).trans hinv.stack⟩
    · exact hspace.congr hpages hfree.poolOk fun f hf =>
        hspace.apart f (leafFrames_subset hleaves hf)
    · exact (leavesHeld_leafFrames hleaves).congr htranslate

/-! ## Giving it back -/

/-- The frames of a user task. -/
def ownedFrames (mem : Mem) (t : TaskFrames) : List Nat :=
  leafFrames mem 1 t.pml4 ++ slotTables mem 1 t.pml4 ++ [t.pml4, t.ustackPage] ++
    framesFrom t.kstackPage KSTACK_PAGES

/-- `free_task_resources` frees the frames of the task, each once, and no other. -/
def FreesOnce (m : Machine) (t : TaskFrames) : Prop :=
  ∀ f, (freeTaskResourcesOn t m).2.count f = if f ∈ ownedFrames m.mem t then 1 else 0

theorem stack_userSlot : UserSlot STACK_VADDR := by decide +kernel

theorem pageDown_stackEntry {ustack : Nat} (hframe : IsFrame ustack) :
    pageDown (stackEntry ustack) = ustack :=
  pageDown_or hframe.1 (show PAGE_USER ||| PAGE_WRITE < 2 ^ 12 by decide)

/-- What `free_task_resources` frees: the stack, what is below the slots, the PML4 and
the kernel stack. -/
theorem freeTaskResourcesOn_frees {t : TaskFrames} {own : List Nat}
    (hspace : Space m t.pml4 own held)
    (hleaves : LeavesHeld UserSlot m t.pml4 held) (hpml4 : t.pml4 ≠ 0)
    (hframe : IsFrame t.ustackPage)
    (hheld : t.ustackPage ∈ held) :
    t.ustackPage :: slotFrames m.mem 1 t.pml4 <+: (freeTaskResourcesOn t m).2 := by
  have hsame : ∀ x, pageDown x ∈ tables m.mem 3 t.pml4 →
      (release (m, []) t.ustackPage).1.mem x = m.mem x := by
    intro x hx
    refine release_mem hframe.1 ?_
    intro heq
    exact hspace.apart _ hheld (heq ▸ hx)
  have hwalk := freeSlots_user hspace hleaves hsame
  unfold freeTaskResourcesOn
  dsimp only
  rw [if_pos hframe.2.1.ne', if_pos hpml4]
  have hlist : (release (freeSlots 1 t.pml4 (release (m, []) t.ustackPage)) t.pml4).2 =
      t.ustackPage :: slotFrames m.mem 1 t.pml4 ++ [t.pml4] := by
    show (freeSlots 1 t.pml4 (release (m, []) t.ustackPage)).2 ++ [t.pml4] = _
    rw [hwalk]
    rfl
  split
  · dsimp only
    rw [hlist, List.append_assoc]
    exact List.prefix_append _ _
  · rw [hlist]
    exact List.prefix_append _ _

/-- The stack is freed twice: from the task and from its page tables. -/
theorem GrowInv.not_freesOnce {t : TaskFrames} {s : BrkState}
    (hinv : GrowInv t.pml4 t.ustackPage s)
    (hpml4 : t.pml4 ≠ 0) (hframe : IsFrame t.ustackPage) : ¬ FreesOnce s.machine t := by
  obtain ⟨held, hspace, hleaves⟩ := hinv.space
  have hstack := hinv.stack
  rw [hinv.pml4] at hspace hleaves hstack
  have hustack := (hleaves STACK_VADDR 0 _ stack_userSlot hstack).2
  rw [pageDown_stackEntry hframe] at hustack
  obtain ⟨rest, hfreed⟩ := freeTaskResourcesOn_frees hspace hleaves hpml4 hframe hustack
  have hleaf : t.ustackPage ∈ leafFrames s.machine.mem 1 t.pml4 := by
    rw [← pageDown_stackEntry hframe]
    exact mem_leafFrames (mem_userSlots.mpr stack_userSlot) hstack
  have hwalk : t.ustackPage ∈ slotFrames s.machine.mem 1 t.pml4 :=
    (slotFrames_perm _ _ _).mem_iff.mpr (List.mem_append_left _ hleaf)
  intro honce
  have hcount := honce t.ustackPage
  rw [← hfreed, List.count_append, List.count_cons_self] at hcount
  have hpos : 0 < (slotFrames s.machine.mem 1 t.pml4).count t.ustackPage :=
    List.count_pos_iff.mpr hwalk
  split at hcount <;> omega

/-- Whatever program a task has and however its heap has grown, `free_task_resources`
does not free each of its frames once. -/
theorem created_not_freesOnce (K : NodeHeap η) (own : η → List Nat) (hsound : K.Sound own)
    (file : ElfFile)
    (args : List (List UInt8)) (hfit : ArgsFit args) (h h' : η) (m m' : Machine) (cr3 : Nat)
    (held : List Nat)
    (slot t : TaskFrames) (hspace : Space m cr3 (own h) held)
    (hreap : ∀ entry pml4 h' m', loadUser K h m cr3 file = some (entry, pml4, h', m') →
      ReapSafe (own h') pml4 m' (allocTaskOn slot m'))
    (hcreate : taskCreateUserOn K h m cr3 slot file args = some (t, h', m')) (pid : Int)
    (s : BrkState)
    (hrun : Reach brkStep GrowGuard
      { machine := m', pml4 := t.pml4, brk := USER_HEAP_START, pid := pid } s) :
    ¬ FreesOnce s.machine t := by
  obtain ⟨held', hpml4, hframe, hspace', hleaves', hstack⟩ :=
    taskCreateUserOn_spec hsound hspace hfit hreap hcreate
  have hstart :
      GrowInv t.pml4 t.ustackPage
      { machine := m', pml4 := t.pml4, brk := USER_HEAP_START, pid := pid } :=
    ⟨rfl, ⟨held', hspace', hleaves'⟩, hstack⟩
  have hinv : GrowInv t.pml4 t.ustackPage s :=
    Reach.invariant (GrowInv t.pml4 t.ustackPage) hstart
      (fun _ _ _ hinv hguard hstep => hinv.step hguard hstep) hrun
  exact hinv.not_freesOnce hpml4 hframe

/-- A slot that no task has used. -/
def emptySlot : TaskFrames := { pml4 := 0, kstackPage := 0, ustackPage := 0 }

/-- A PML4 at `0x1000` with a table of the kernel for slot `0`, and nine free frames. -/
def kernelMachine : Machine where
  mem := wrLE (zeroFill (fun _ => 0) 0x6000 (8 * PAGE_TABLE_ENTRIES)) 0x1000 8 0x6003
  pmm := lowFrames [0x13000, 0x12000, 0x11000, 0x10000, 0xF000, 0xE000, 0xD000, 0xC000, 0xB000] 9

theorem kernelMachine_space : Space kernelMachine 0x1000 [] [] := by
  have hempty : Space (emptyMachine
      [0x6000, 0x13000, 0x12000, 0x11000, 0x10000, 0xF000, 0xE000, 0xD000, 0xC000, 0xB000]) 0x1000
        [] [] :=
    space_empty (by decide) (by decide +kernel) (by decide)
  have hm : kernelMachine =
      { mem := wrLE (zeroFill (fun _ => 0) 0x6000 (8 * PAGE_TABLE_ENTRIES)) (0x1000 + 8 *
        (virtPath 0 3).val) 8
          (0x6000 ||| tableFlags 0 ||| PAGE_PRESENT), pmm := kernelMachine.pmm } := by
    have hslot : 0x1000 + 8 * (virtPath 0 3).val = 0x1000 := by decide +kernel
    have hentry : 0x6000 ||| tableFlags 0 ||| PAGE_PRESENT = 0x6003 := by decide +kernel
    rw [hslot, hentry, kernelMachine]
  have hpop : popOrder (emptyMachine
      [0x6000, 0x13000, 0x12000, 0x11000, 0x10000, 0xF000, 0xE000, 0xD000, 0xC000, 0xB000]).pmm =
      0x6000 :: popOrder kernelMachine.pmm := rfl
  have hext :=
    (extended_newTable hempty.tree hempty.freeOk hpop (pageStore_empty 3 0x1000 _) hm).1
  refine ⟨hext.treeOk hempty.tree hempty.freeOk, ?_, fun a ha => ?_⟩
  · rw [List.append_nil]
    exact (hext.freeOk_tables hempty.freeOk).poolOk
  · exact absurd ha List.not_mem_nil

/-- An executable without segments. -/
def bareElf : List UInt8 :=
  [0x7F, 0x45, 0x4C, 0x46, 2, 1, 1, 0, 0, 0, 0, 0, 0, 0, 0, 0, 2, 0, 62, 0, 1, 0, 0, 0,
    0, 0, 0, 0, 0x80, 0, 0, 0, 64, 0, 0, 0, 0, 0, 0, 0, 0, 0, 0, 0, 0, 0, 0, 0,
    0, 0, 0, 0, 64, 0, 56, 0, 0, 0, 0, 0, 0, 0, 0, 0]

/-- The machine after it is loaded. -/
def bareMachine : Machine where
  mem := zeroFill (copyWords kernelMachine.mem 0x13000 0x1000 PAGE_TABLE_ENTRIES) (0x13000 + 8)
    (8 * 255)
  pmm := lowFrames [0x12000, 0x11000, 0x10000, 0xF000, 0xE000, 0xD000, 0xC000, 0xB000] 8

theorem vmmCreatePml4_bare : vmmCreatePml4 kernelMachine 0x1000 = (0x13000, bareMachine) := by
  unfold vmmCreatePml4 kernelMachine bareMachine
  rw [allocFrame_low]
  dsimp only
  rw [if_neg (by decide), show sub64 9 1 = 8 by decide]
  rfl

theorem elfLoad_bare :
    elfLoad pageHeap (elfFileOf bareElf) 0x13000 0 bareMachine =
      (0x8000000000, 0, bareMachine) := by
  have hhdr : readHdr (elfFileOf bareElf) = some { tinyHdr with e_phnum := 0 } :=
    by decide +kernel
  unfold elfLoad
  rw [if_neg (by decide), hhdr]
  dsimp only
  rw [loadSegments]
  dsimp only
  rw [elfFreeNodes]
  rfl

theorem loadUser_bare :
    loadUser pageHeap 0 kernelMachine 0x1000 (elfFileOf bareElf) =
      some (0x8000000000, 0x13000, 0, bareMachine) := by
  unfold loadUser
  rw [vmmCreatePml4_bare]
  dsimp only
  rw [if_neg (by decide), elfLoad_bare]
  dsimp only
  rw [if_neg (by decide)]

/-- The machine with the frames of the kernel stack taken. -/
def stackMachine : Machine where
  mem := bareMachine.mem
  pmm := lowFrames [0xE000, 0xD000, 0xC000, 0xB000] 1

theorem allocRestOn_bare : allocRestOn 0x12000 3 1
    { mem := bareMachine.mem,
      pmm := lowFrames [0x11000, 0x10000, 0xF000, 0xE000, 0xD000, 0xC000, 0xB000] 4 } =
      (true, stackMachine) := by
  rw [allocRestOn, allocFrame_low]
  dsimp only
  rw [if_neg (by decide), allocRestOn, allocFrame_low]
  dsimp only
  rw [if_neg (by decide), allocRestOn, allocFrame_low]
  dsimp only
  rw [if_neg (by decide), allocRestOn, show sub64 (sub64 (sub64 4 1) 1) 1 = 1 by decide]
  rfl

theorem allocFrames_bare : allocFrames bareMachine KSTACK_PAGES = (0xF000, stackMachine) := by
  have hfirst : allocFrame bareMachine = (0x12000,
      { mem := bareMachine.mem
        pmm := lowFrames [0x11000, 0x10000, 0xF000, 0xE000, 0xD000, 0xC000, 0xB000] 7 }) := by
    refine (allocFrame_low bareMachine.mem _ _ 8).trans ?_
    rw [show sub64 8 1 = 7 by decide]
  have hlow : Pmm.mk (lowFrames [0x11000, 0x10000, 0xF000, 0xE000, 0xD000, 0xC000, 0xB000] 7).free
      4 =
      lowFrames [0x11000, 0x10000, 0xF000, 0xE000, 0xD000, 0xC000, 0xB000] 4 := rfl
  have htotal :
      (lowFrames [0x11000, 0x10000, 0xF000, 0xE000, 0xD000, 0xC000, 0xB000] 7).freePagesTotal =
      7 := rfl
  have hpages : KSTACK_PAGES = 4 := by decide
  unfold allocFrames
  rw [hpages, if_neg (by decide), hfirst]
  dsimp only
  rw [if_neg (by decide), htotal,
    show sub64 7 (4 - 1) = 4 by decide, hlow, show 4 - 1 = 3 from rfl, allocRestOn_bare]
  dsimp only
  rw [show sub64 0x12000 (3 * 0x1000) = 0xF000 by decide]

/-- A task for this program, made in a slot that no task has used. -/
theorem bareTask :
    ∃ t m', taskCreateUserOn pageHeap 0 kernelMachine 0x1000 emptySlot (elfFileOf bareElf) [] =
    some (t, 0, m') := by
  have hsome : (mapStack stackMachine 0x13000 []).isSome = true := by decide +kernel
  obtain ⟨⟨ustack, rsp, m'⟩, hstack⟩ := Option.isSome_iff_exists.mp hsome
  have hslot : allocTaskOn emptySlot bareMachine = bareMachine := if_neg (by decide)
  unfold taskCreateUserOn
  rw [loadUser_bare]
  dsimp only
  rw [hslot, allocFrames_bare]
  dsimp only
  rw [if_neg (by decide), hstack]
  exact ⟨_, _, rfl⟩

theorem bareTask_reap (entry pml4 h' : Nat) (m' : Machine)
    (hload : loadUser pageHeap 0 kernelMachine 0x1000 (elfFileOf bareElf) =
      some (entry, pml4, h', m')) :
    ReapSafe [] pml4 m' (allocTaskOn emptySlot m') := by
  obtain ⟨held, hspace, hleaves, -⟩ := loadUser_spec (pageHeap_sound []) kernelMachine_space hload
  exact reapSafe_empty hspace hleaves

/-- A task that asks for a page of heap. -/
theorem created_not_freesOnce_bare :
    ∃ t m', taskCreateUserOn pageHeap 0 kernelMachine 0x1000 emptySlot (elfFileOf bareElf) [] =
        some (t, 0, m') ∧
      ¬ FreesOnce (sysBrk { machine := m', pml4 := t.pml4, brk := USER_HEAP_START, pid := 1 }
        (USER_HEAP_START + 0x1000)).2.machine t := by
  obtain ⟨t, m', htask⟩ := bareTask
  refine ⟨t, m', htask, ?_⟩
  exact created_not_freesOnce pageHeap (fun _ => []) (pageHeap_sound []) (elfFileOf bareElf) []
    (by decide) 0 0
    kernelMachine m' 0x1000 [] emptySlot t kernelMachine_space bareTask_reap htask 1 _
    (Reach.start.next (o := .brk (USER_HEAP_START + 0x1000)) trivial rfl)

/-- A task that has just been made. -/
theorem bareTask_not_freesOnce :
    ∃ t m', taskCreateUserOn pageHeap 0 kernelMachine 0x1000 emptySlot (elfFileOf bareElf) [] =
        some (t, 0, m') ∧
      ¬ FreesOnce m' t := by
  obtain ⟨t, m', htask⟩ := bareTask
  obtain ⟨held', hpml4, hframe, hspace', hleaves', hstack⟩ :=
    taskCreateUserOn_spec (pageHeap_sound [])
    kernelMachine_space (show ArgsFit [] by decide) bareTask_reap htask
  have hinv : GrowInv t.pml4 t.ustackPage
      { machine := m', pml4 := t.pml4, brk := USER_HEAP_START, pid := 1 } :=
    ⟨rfl, ⟨held', hspace', hleaves'⟩, hstack⟩
  exact ⟨t, m', htask, hinv.not_freesOnce hpml4 hframe⟩

/-! ## Replacing the program -/

/-- The kernel's part of an address space: what is below the slots that
`vmm_create_pml4` copies. -/
def kernelTables (mem : Mem) (pml4 : Nat) : List Nat :=
  (tableSlots.filter fun i => ¬ (1 ≤ i.val ∧ i.val < 256)).flatMap fun i =>
    Radix.slotNodes (pageStore mem) tableSlots 3 (pageStore mem 3 pml4 i)

def kernelLeaves (mem : Mem) (pml4 : Nat) : List Nat :=
  (tableSlots.filter fun i => ¬ (1 ≤ i.val ∧ i.val < 256)).flatMap fun i =>
    (Radix.slotLeaves (pageStore mem) tableSlots 3 (pageStore mem 3 pml4 i)).map pageDown

/-- The frames that an exec gives back are the old program's, each once, and none of
them is a table or a page of the kernel. -/
structure ExecFrees (mem : Mem) (t : TaskFrames) (freed : List Nat) : Prop where
  once : ∀ f, freed.count f =
    if f ∈ leafFrames mem 1 t.pml4 ++ slotTables mem 1 t.pml4 ++ [t.ustackPage, t.pml4] then 1
      else 0
  kernel : ∀ f ∈ freed, f ∉ kernelTables mem t.pml4 ∧ f ∉ kernelLeaves mem t.pml4

/-- A loop that only adds to the frames freed keeps those freed before. -/
theorem foldl_extends {step : Machine × List Nat → Fin 512 → Machine × List Nat}
    (is : List (Fin 512))
    (s : Machine × List Nat) (hstep : ∀ s i, s.2 <+: (step s i).2) :
    s.2 <+: (is.foldl step s).2 := by
  induction is generalizing s with
  | nil => exact List.prefix_refl _
  | cons i is ih => exact (hstep s i).trans (ih (step s i))

theorem freeTable_extends (l t : Nat) (s : Machine × List Nat) : s.2 <+: (freeTable l t s).2 := by
  induction l generalizing t s with
  | zero =>
    rw [freeTable]
    refine foldl_extends _ s fun s i => ?_
    dsimp only
    split
    · exact List.prefix_append _ _
    · exact List.prefix_refl _
  | succ l ih =>
    rw [freeTable]
    refine foldl_extends _ s fun s i => ?_
    dsimp only
    split
    · split
      · exact List.prefix_append _ _
      · exact (ih _ _).trans (List.prefix_append _ _)
    · exact List.prefix_refl _

/-- The walk from slot `0` on begins there. -/
theorem userSlots_zero : ∃ rest, userSlots 0 = 0 :: rest := by
  unfold userSlots tableSlots
  rw [List.finRange_succ, List.filter_cons_of_pos (by decide)]
  exact ⟨_, rfl⟩

/-- So it frees the table of slot `0`. -/
theorem mem_freeSlots_zero (hpresent : isPresent (entryAt m.mem pml4 0)) :
    pageDown (entryAt m.mem pml4 0) ∈ (freeSlots 0 pml4 (m, [])).2 := by
  obtain ⟨rest, hrest⟩ := userSlots_zero
  unfold freeSlots
  rw [hrest, List.foldl_cons]
  apply List.IsPrefix.subset (foldl_extends rest _ ?_)
  · show pageDown (entryAt m.mem pml4 0) ∈
      (if isPresent (entryAt m.mem pml4 0) then
        release (freeTable 2 (pageDown (entryAt m.mem pml4 0)) (m, []))
          (pageDown (entryAt m.mem pml4 0))
      else (m, [])).2
    rw [if_pos hpresent]
    exact List.mem_append_right _ (List.mem_singleton.mpr rfl)
  · intro s i
    dsimp only
    split
    · exact (freeTable_extends _ _ _).trans (List.prefix_append _ _)
    · exact List.prefix_refl _

/-- The table of slot `0` is the kernel's. -/
theorem slotZero_kernel (hpresent : isPresent (entryAt mem pml4 0)) :
    pageDown (entryAt mem pml4 0) ∈ kernelTables mem pml4 ∨
      pageDown (entryAt mem pml4 0) ∈ kernelLeaves mem pml4 := by
  have hzero : (0 : Fin 512) ∈ tableSlots.filter fun i => ¬ (1 ≤ i.val ∧ i.val < 256) :=
    List.mem_filter.mpr ⟨mem_tableSlots 0, by decide⟩
  by_cases hhuge : isHuge (entryAt mem pml4 0) = true
  · have hslot : pageStore mem 3 pml4 0 = .leaf (entryAt mem pml4 0) := by
      show pageSlot 3 (entryAt mem pml4 0) = _
      unfold pageSlot
      rw [if_pos hpresent, if_pos (.inr hhuge)]
    refine .inr (List.mem_flatMap.mpr ⟨0, hzero, ?_⟩)
    rw [hslot]
    exact List.mem_singleton.mpr rfl
  · have hslot : pageStore mem 3 pml4 0 = .node (pageDown (entryAt mem pml4 0)) := by
      show pageSlot 3 (entryAt mem pml4 0) = _
      unfold pageSlot
      rw [if_pos hpresent, if_neg (by simp [hhuge])]
    refine .inl (List.mem_flatMap.mpr ⟨0, hzero, ?_⟩)
    rw [hslot]
    exact mem_tables_self mem 2 _

/-- An exec that succeeds frees the table of slot `0`. -/
theorem taskExec_frees_slotZero {t t' : TaskFrames} {freed : List Nat} (hsound : K.Sound own)
    (hfit : ArgsFit args)
    (hspace : Space m t.pml4 (own h) held) (hpml4 : t.pml4 ≠ 0)
    (hkernel : isPresent (entryAt m.mem t.pml4 0))
    (hexec : taskExec K h m t file args = some (freed, t', h', m')) :
    pageDown (entryAt m.mem t.pml4 0) ∈ freed := by
  unfold taskExec at hexec
  cases hload : loadUser K h m t.pml4 file with
  | none =>
    rw [hload] at hexec
    cases hexec
  | some r =>
    obtain ⟨entry, pml4, h₁, m₁⟩ := r
    obtain ⟨held₁, hspace₁, hleaves₁, hcr3, -, hmem₁⟩ := loadUser_spec hsound hspace hload
    rw [hload] at hexec
    dsimp only at hexec
    cases hstack : mapStack m₁ pml4 args with
    | none =>
      rw [hstack] at hexec
      cases hexec
    | some r =>
      obtain ⟨ustack, rsp, m₂⟩ := r
      obtain ⟨-, -, -, -, hmem₂⟩ := mapStack_spec hspace₁ hleaves₁ hfit hstack
      rw [hstack] at hexec
      dsimp only at hexec
      rw [if_pos hpml4, if_pos hpml4] at hexec
      -- The old PML4 is as it was when the walk gets to it.
      have hentry : entryAt m₂.mem t.pml4 0 = entryAt m.mem t.pml4 0 := by
        have ht : t.pml4 % 0x1000 = 0 := hspace.tree.aligned _ (mem_tables_self _ _ _)
        refine rdLE_congr fun x hlo hhi => ?_
        have hx : pageDown x = t.pml4 := pageDown_of_mem_page ht (by omega) (by omega)
        rw [hmem₂ x (hx ▸ hcr3), hmem₁ x hx]
      have hpresent : isPresent (entryAt m₂.mem t.pml4 0) := by
        rw [hentry]
        exact hkernel
      have hwalk := mem_freeSlots_zero hpresent
      rw [hentry] at hwalk
      simp only [Option.some.injEq, Prod.mk.injEq] at hexec
      rw [← hexec.1]
      refine List.mem_append_left _ ?_
      split
      · exact List.mem_append_left _ hwalk
      · exact hwalk

/-- This table is the kernel's. -/
theorem ExecFrees.slotZero {t : TaskFrames} {freed : List Nat} (hfrees : ExecFrees mem t freed)
    (hkernel : isPresent (entryAt mem t.pml4 0)) : pageDown (entryAt mem t.pml4 0) ∉ freed := by
  intro hmem
  obtain ⟨htable, hleaf⟩ := hfrees.kernel _ hmem
  rcases slotZero_kernel hkernel with hin | hin
  · exact htable hin
  · exact hleaf hin

/-- The memory of the kernel is in slot `0` of every PML4, and no exec that succeeds
leaves it alone. -/
theorem exec_not_execFrees (K : NodeHeap η) (own : η → List Nat) (hsound : K.Sound own)
    (file : ElfFile)
    (args : List (List UInt8)) (hfit : ArgsFit args) (h h' : η) (m m' : Machine)
    (held freed : List Nat)
    (t t' : TaskFrames) (hspace : Space m t.pml4 (own h) held) (hpml4 : t.pml4 ≠ 0)
    (hkernel : isPresent (entryAt m.mem t.pml4 0))
    (hexec : taskExec K h m t file args = some (freed, t', h', m')) : ¬ ExecFrees m.mem t freed :=
  fun hfrees =>
    hfrees.slotZero hkernel (taskExec_frees_slotZero hsound hfit hspace hpml4 hkernel hexec)

/-- A task without pages of its own. -/
def idleTask : TaskFrames := { pml4 := 0x1000, kstackPage := 0x7000, ustackPage := 0x5000 }

theorem idleExec :
    ∃ freed t' m', taskExec pageHeap 0 kernelMachine idleTask (elfFileOf bareElf) [] =
    some (freed, t', 0, m') := by
  have hsome : (mapStack bareMachine 0x13000 []).isSome = true := by decide +kernel
  obtain ⟨⟨ustack, rsp, m'⟩, hstack⟩ := Option.isSome_iff_exists.mp hsome
  unfold taskExec
  rw [show loadUser pageHeap 0 kernelMachine idleTask.pml4 (elfFileOf bareElf) =
    _ from loadUser_bare]
  dsimp only
  rw [hstack]
  exact ⟨_, _, _, rfl⟩

theorem exec_not_execFrees_idle :
    ∃ freed t' m', taskExec pageHeap 0 kernelMachine idleTask (elfFileOf bareElf) [] =
        some (freed, t', 0, m') ∧
      ¬ ExecFrees kernelMachine.mem idleTask freed := by
  obtain ⟨freed, t', m', hexec⟩ := idleExec
  exact ⟨freed, t', m', hexec, exec_not_execFrees pageHeap (fun _ => []) (pageHeap_sound [])
    (elfFileOf bareElf) []
    (by decide) 0 0 kernelMachine m' [] freed idleTask t' kernelMachine_space (by decide)
    (by decide +kernel) hexec⟩

/-- The table of the kernel at `0x6000` is among the frames that are freed. -/
theorem idleExec_not_execFrees :
    ∃ freed t' m', taskExec pageHeap 0 kernelMachine idleTask (elfFileOf bareElf) [] =
        some (freed, t', 0, m') ∧
      0x6000 ∈ freed ∧ ¬ ExecFrees kernelMachine.mem idleTask freed := by
  obtain ⟨freed, t', m', hexec⟩ := idleExec
  have hkernel : isPresent (entryAt kernelMachine.mem idleTask.pml4 0) := by decide +kernel
  have hentry : pageDown (entryAt kernelMachine.mem idleTask.pml4 0) = 0x6000 := by decide +kernel
  have hfreed :=
    taskExec_frees_slotZero (pageHeap_sound []) (show ArgsFit [] by decide) kernelMachine_space
    (by decide) hkernel hexec
  exact ⟨freed, t', m', hexec, hentry ▸ hfreed, fun hfrees => hfrees.slotZero hkernel hfreed⟩

end Lumin.Proc
