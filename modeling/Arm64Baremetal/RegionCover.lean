import Arm64Baremetal.TablesRunOut
import Mathlib.Data.Fintype.Card

/-!
map_region, map_region_virtual and see_map_region over the bytes of a region. All three round
the start down to its page, but count the pages from the size alone.
-/

set_option autoImplicit false

namespace Arm64

variable {ρ : Type}

/-- `for (int i = 0; i < size; i += 4096)`, where turn `n` has `i = 4096 n`: what the turns do,
and whether the loop comes to its end before `i` overflows. -/
def regionLoop (size : Word) (turn : Nat → Tables → Tables) (m : Tables) : Tables × Bool :=
  ((List.range (min (pageTurns size) (2 ^ 19))).foldl (fun m n => turn n m) m,
    decide (pageTurns size < 2 ^ 19))

/-- map_region with `off = 0`, and map_region_virtual with `off = KERNEL_VIRT_BASE`. -/
def mapRegionLoop (A : TableArea ρ) (off root vaStart paStart size flags : Word) (m : Tables) :
    Tables × Bool :=
  let va := vaStart &&& ~~~0xFFF
  let pa := paStart &&& ~~~0xFFF
  regionLoop size (fun n =>
    let i := BitVec.ofNat 64 (4096 * n)
    mapPage A off root (va + i) (pa + i) flags) m

def seeMapRegionLoop (A : TableArea ρ) (l1 vaStart paStart size flags : Word) (m : Tables) :
    Tables × Bool :=
  let va := vaStart &&& ~~~0xFFF
  let pa := paStart &&& ~~~0xFFF
  regionLoop size (fun n =>
    let i := BitVec.ofNat 64 (4096 * n)
    seeMapPage A l1 (va + i) (pa + i) flags) m

def Translates (mem : TableMem) (root va pa : Word) : Prop :=
  ∃ d, walk mem root va = some d ∧ descAddr d + (va &&& 0xFFF) = pa

structure RegionMapped (e : Tables × Bool) (root vaStart paStart size : Word) : Prop where
  ended : e.2 = true
  bytes : ∀ k < size.toNat, Translates e.1.mem root (vaStart + BitVec.ofNat 64 k)
    (paStart + BitVec.ofNat 64 k)

def pagesOf (offset n : Nat) : Nat := (offset + n + 4095) / 4096

/-- The loop comes to the last page, or that was mapped before; and the locations can be
written in a descriptor. -/
def LastPageMapped (mem : TableMem) (root vaStart paStart size : Word) : Prop :=
  size = 0 ∨ paStart.toNat + size.toNat ≤ 2 ^ 48 ∧
    (pagesOf (vaStart.toNat % 4096) size.toNat = pagesOf 0 size.toNat ∨
      Translates mem root (vaStart + (size - 1)) (paStart + (size - 1)))

section Pages
variable {offset n k : Nat}

theorem pagesOf_reached (hk : k < n) (h : pagesOf offset n = pagesOf 0 n) :
    (offset + k) / 4096 < pagesOf 0 n := by
  unfold pagesOf at *
  omega

/-- At most one page is left out: that of the last byte. -/
theorem pagesOf_left (ho : offset < 4096) (hk : k < n)
    (h : ¬ (offset + k) / 4096 < pagesOf 0 n) :
    (offset + k) / 4096 = (offset + (n - 1)) / 4096 := by
  unfold pagesOf at *
  omega

theorem pagesOf_last (hn : 0 < n) (h : pagesOf offset n ≠ pagesOf 0 n) :
    ¬ (offset + (n - 1)) / 4096 < pagesOf 0 n := by
  unfold pagesOf at *
  omega

theorem pageTurns_eq (size : Word) : pageTurns size = pagesOf 0 size.toNat := by
  rw [pageTurns,pagesOf,Nat.zero_add]

theorem toNat_pos {w : Word} (h : w ≠ 0) : 0 < w.toNat :=
  Nat.pos_of_ne_zero fun hz => h (BitVec.eq_of_toNat_eq hz)

theorem last_byte {size : Word} (h : size ≠ 0) : size - 1 = BitVec.ofNat 64 (size.toNat - 1) := by
  have hpos := toNat_pos h
  have hone : (1 : Word).toNat = 1 := rfl
  apply BitVec.eq_of_toNat_eq
  rw [BitVec.toNat_sub,BitVec.toNat_ofNat,hone]
  omega

theorem toNat_add_ofNat (w : Word) (k : Nat) :
    (w + BitVec.ofNat 64 k).toNat = (w.toNat + k) % 2 ^ 64 := by
  rw [BitVec.toNat_add,BitVec.toNat_ofNat,Nat.add_mod_mod]

end Pages

variable {A : TableArea ρ} {m : Tables}

section Fits

theorem blocks_le_slots (h : TablesOk A m) {r : ρ} {va : Word} {n : Nat} (hn : n ≤ 2 ^ 11)
    (hmapped : ∀ b < n, walk m.mem (A.root r) (va + BitVec.ofNat 64 (4096 * (512 * b))) ≠ none) :
    n ≤ A.slots := by
  obtain ⟨t,ht⟩ := h
  have hva := pageNumber_lt va
  have htable : ∀ b : Fin n, ∃ a, t.l3 r (l1Idx (va + BitVec.ofNat 64 (4096 * (512 * b.val))))
      (l2Idx (va + BitVec.ofNat 64 (4096 * (512 * b.val)))) = some a := by
    intro b
    have hb := hmapped b.val b.isLt
    rw [ht.walk_eq,leaf] at hb
    cases ha : t.l3 r (l1Idx (va + BitVec.ofNat 64 (4096 * (512 * b.val))))
        (l2Idx (va + BitVec.ofNat 64 (4096 * (512 * b.val)))) with
    | none => simp [ha] at hb
    | some a => exact ⟨a,rfl⟩
  choose table htable using htable
  have hinj : Function.Injective table := by
    intro b b' hb
    obtain ⟨_,h1,h2⟩ := ht.inj3 _ _ _ _ _ _ _ (htable b) (hb ▸ htable b')
    have h1' := congrArg Fin.val h1
    have h2' := congrArg Fin.val h2
    rw [l1Idx_val,l1Idx_val,pageNumber_add,pageNumber_add] at h1'
    rw [l2Idx_val,l2Idx_val,pageNumber_add,pageNumber_add] at h2'
    have hlt := b.isLt
    have hlt' := b'.isLt
    exact Fin.ext (by omega)
  have hcard := Fintype.card_le_of_injective table hinj
  rwa [Fintype.card_fin,Fintype.card_fin] at hcard

theorem mapRegionLoop_of_lt {size : Word} (h : pageTurns size < 2 ^ 19) (A : TableArea ρ)
    (off root vaStart paStart flags : Word) (m : Tables) :
    mapRegionLoop A off root vaStart paStart size flags m =
      (mapRegion A off root vaStart paStart size flags m,true) := by
  have hmin : min (pageTurns size) (2 ^ 19) = pageTurns size := Nat.min_eq_left (Nat.le_of_lt h)
  unfold mapRegionLoop regionLoop mapRegion
  dsimp only
  rw [hmin,decide_eq_true h]

variable [DecidableEq ρ]

theorem turns_le (h : TablesOk A m) {off : Word} {r : ρ} {va pa flags : Word} {n : Nat}
    (hn : n ≤ 2 ^ 20)
    (hr : ((List.range n).foldl (fun m n => mapPage A off (A.root r + off)
      (va + BitVec.ofNat 64 (4096 * n)) (pa + BitVec.ofNat 64 (4096 * n)) flags m) m).ranOut =
        false) : n ≤ 512 * A.slots := by
  obtain ⟨hok,hwalk⟩ := mapPages_walk h hn hr
  have hblocks := @blocks_le_slots _ _ _ hok r va ((n + 511) / 512) (by omega) fun b hb => by
    have hself := (@pageNumber_add_iff va _ (512 * b) (by omega)).mp rfl
    rw [hwalk r,if_pos ⟨rfl,by omega⟩,leafOf_page]
    exact Option.some_ne_none _
  omega

/-- A pool of 64 tables is used up long before `i` overflows. -/
theorem regionLoop_ended (h : TablesOk A m) (hslots : A.slots ≤ 64) {off : Word} {r : ρ}
    {vaStart paStart size flags : Word} {e : Tables × Bool}
    (he : e = mapRegionLoop A off (A.root r + off) vaStart paStart size flags m)
    (hr : e.1.ranOut = false) : pageTurns size < 2 ^ 19 ∧ e.2 = true ∧
      e.1 = mapRegion A off (A.root r + off) vaStart paStart size flags m := by
  subst he
  have hturns := turns_le h (Nat.le_trans (Nat.min_le_right _ _) (by decide)) hr
  have hlt : pageTurns size < 2 ^ 19 := by omega
  rw [mapRegionLoop_of_lt hlt]
  exact ⟨hlt,rfl,rfl⟩

end Fits

section Bytes

theorem and_low_toNat (w : Word) : (w &&& 0xFFF).toNat = w.toNat % 4096 := by
  rw [BitVec.toNat_and]
  exact Nat.and_two_pow_sub_one_eq_mod w.toNat 12

theorem descAddr_le (d : Word) : (descAddr d).toNat ≤ 0xFFFFFFFFF000 := by
  rw [descAddr,BitVec.toNat_and]
  exact Nat.and_le_right

theorem translates_iff {mem : TableMem} {root va pa : Word} : Translates mem root va pa ↔
    ∃ d, walk mem root va = some d ∧ (descAddr d).toNat + va.toNat % 4096 = pa.toNat := by
  refine exists_congr fun d => and_congr_right fun _ => ?_
  have hd := descAddr_le d
  have hsum : (descAddr d + (va &&& 0xFFF)).toNat = (descAddr d).toNat + va.toNat % 4096 := by
    rw [BitVec.toNat_add,and_low_toNat]
    omega
  rw [← hsum]
  exact BitVec.toNat_inj.symm

theorem Translates.lt {mem : TableMem} {root va pa : Word} (h : Translates mem root va pa) :
    pa.toNat < 2 ^ 48 := by
  obtain ⟨d,_,hpa⟩ := translates_iff.mp h
  have hd := descAddr_le d
  omega

theorem Translates.page {mem : TableMem} {root va va' pa pa' : Word} (h : Translates mem root va pa)
    (hpage : pageNumber va' = pageNumber va)
    (hpa : pa'.toNat + va.toNat % 4096 = pa.toNat + va'.toNat % 4096) :
    Translates mem root va' pa' := by
  obtain ⟨d,hd,hd'⟩ := translates_iff.mp h
  exact translates_iff.mpr ⟨d,(walk_page hpage mem root).trans hd,by omega⟩

variable {vaStart paStart size flags : Word} {k : Nat}

theorem region_byte (hva : vaStart.toNat % 2 ^ 32 + size.toNat ≤ 2 ^ 32) (hk : k < size.toNat) :
    (vaStart + BitVec.ofNat 64 k).toNat % 4096 = (vaStart.toNat % 4096 + k) % 4096 ∧
      pageNumber (vaStart + BitVec.ofNat 64 k) =
        pageNumber vaStart + (vaStart.toNat % 4096 + k) / 4096 ∧
      pageOffset (vaStart &&& ~~~0xFFF) (pageNumber (vaStart + BitVec.ofNat 64 k)) =
        (vaStart.toNat % 4096 + k) / 4096 := by
  have hsum := toNat_add_ofNat vaStart k
  have hnum : pageNumber (vaStart + BitVec.ofNat 64 k) =
      pageNumber vaStart + (vaStart.toNat % 4096 + k) / 4096 := by
    unfold pageNumber
    rw [hsum]
    omega
  refine ⟨by rw [hsum]; omega,hnum,?_⟩
  rw [pageOffset_round,pageOffset_of_le (pageNumber_lt _) (by omega),hnum]
  omega

variable [DecidableEq ρ] {off : Word} {r : ρ}

theorem region_walk (h : TablesOk A m) (hn : pageTurns size ≤ 2 ^ 20)
    (hr : (mapRegion A off (A.root r + off) vaStart paStart size flags m).ranOut = false)
    (hva : vaStart.toNat % 2 ^ 32 + size.toNat ≤ 2 ^ 32) (hk : k < size.toNat) :
    walk (mapRegion A off (A.root r + off) vaStart paStart size flags m).mem (A.root r)
        (vaStart + BitVec.ofNat 64 k) =
      if (vaStart.toNat % 4096 + k) / 4096 < pageTurns size then
        leafOf (((paStart &&& ~~~0xFFF) +
          BitVec.ofNat 64 (4096 * ((vaStart.toNat % 4096 + k) / 4096))) &&& ~~~0xFFF ||| flags |||
            pteTypePage)
      else walk m.mem (A.root r) (vaStart + BitVec.ofNat 64 k) := by
  obtain ⟨_,hwalk⟩ := mapPages_walk h hn hr
  refine (hwalk r _).trans ?_
  rw [(region_byte hva hk).2.2]
  simp only [true_and]

theorem region_reached (h : TablesOk A m) (hn : pageTurns size ≤ 2 ^ 20)
    (hr : (mapRegion A off (A.root r + off) vaStart paStart size flags m).ranOut = false)
    (hva : vaStart.toNat % 2 ^ 32 + size.toNat ≤ 2 ^ 32)
    (hoff : vaStart.toNat % 4096 = paStart.toNat % 4096) (hf : descAddr flags = 0)
    (hpa : paStart.toNat + size.toNat ≤ 2 ^ 48) (hk : k < size.toNat)
    (hq : (vaStart.toNat % 4096 + k) / 4096 < pageTurns size) :
    Translates (mapRegion A off (A.root r + off) vaStart paStart size flags m).mem (A.root r)
      (vaStart + BitVec.ofNat 64 k) (paStart + BitVec.ofNat 64 k) := by
  have hround := and_not_low_toNat paStart
  have hframe : ((paStart &&& ~~~0xFFF) +
      BitVec.ofNat 64 (4096 * ((vaStart.toNat % 4096 + k) / 4096))).toNat =
        4096 * (paStart.toNat / 4096 + (vaStart.toNat % 4096 + k) / 4096) := by
    rw [BitVec.toNat_add,BitVec.toNat_ofNat,hround]
    omega
  have hpage := Nat.mul_mod_right 4096
    (paStart.toNat / 4096 + (vaStart.toNat % 4096 + k) / 4096)
  rw [← hframe] at hpage
  obtain ⟨hleaf,hpageOf⟩ := pageOf_desc hpage (by omega) hf
  have haddr := congrArg Mapping.frame hpageOf
  have hwalk := region_walk h hn hr hva hk
  rw [if_pos hq,and_not_low_of_page hpage,hleaf] at hwalk
  refine translates_iff.mpr ⟨_,hwalk,?_⟩
  have hlocation : (paStart + BitVec.ofNat 64 k).toNat = paStart.toNat + k := by
    rw [toNat_add_ofNat]
    omega
  simp only [pageOf] at haddr
  rw [haddr,hframe,(region_byte hva hk).1,hlocation]
  omega

theorem region_left (h : TablesOk A m) (hn : pageTurns size ≤ 2 ^ 20)
    (hr : (mapRegion A off (A.root r + off) vaStart paStart size flags m).ranOut = false)
    (hva : vaStart.toNat % 2 ^ 32 + size.toNat ≤ 2 ^ 32) (hk : k < size.toNat)
    (hq : ¬ (vaStart.toNat % 4096 + k) / 4096 < pageTurns size) (pa : Word) :
    Translates (mapRegion A off (A.root r + off) vaStart paStart size flags m).mem (A.root r)
        (vaStart + BitVec.ofNat 64 k) pa ↔
      Translates m.mem (A.root r) (vaStart + BitVec.ofNat 64 k) pa := by
  rw [Translates,region_walk h hn hr hva hk,if_neg hq]
  rfl

omit [DecidableEq ρ] in
theorem region_bound {mem : TableMem} {root : Word} (h0 : size ≠ 0)
    (h : ∀ k < size.toNat, Translates mem root (vaStart + BitVec.ofNat 64 k)
      (paStart + BitVec.ofNat 64 k)) : paStart.toNat + size.toNat ≤ 2 ^ 48 := by
  by_contra hgt
  have hpos := toNat_pos h0
  -- the first byte at or above 2^48
  have hbyte := (h (2 ^ 48 - paStart.toNat) (by omega)).lt
  rw [toNat_add_ofNat] at hbyte
  omega

omit [DecidableEq ρ] in
/-- Where the last byte was mapped before, so was the rest of its page. -/
theorem Translates.of_last {mem : TableMem} {root : Word}
    (hva : vaStart.toNat % 2 ^ 32 + size.toNat ≤ 2 ^ 32) (hk : k < size.toNat)
    (hpa : paStart.toNat + size.toNat ≤ 2 ^ 48)
    (hpage : (vaStart.toNat % 4096 + k) / 4096 =
      (vaStart.toNat % 4096 + (size.toNat - 1)) / 4096)
    (h : Translates mem root (vaStart + BitVec.ofNat 64 (size.toNat - 1))
      (paStart + BitVec.ofNat 64 (size.toNat - 1))) :
    Translates mem root (vaStart + BitVec.ofNat 64 k) (paStart + BitVec.ofNat 64 k) := by
  have hlast : size.toNat - 1 < size.toNat := by omega
  obtain ⟨hlow,hnum,_⟩ := region_byte hva hk
  obtain ⟨hlow',hnum',_⟩ := region_byte hva hlast
  refine h.page ?_ ?_
  · rw [hnum,hnum',hpage]
  · rw [hlow,hlow',toNat_add_ofNat,toNat_add_ofNat]
    omega

theorem region_mapped_iff (h : TablesOk A m) (hslots : A.slots ≤ 64) {e : Tables × Bool}
    (he : e = mapRegionLoop A off (A.root r + off) vaStart paStart size flags m)
    (hr : e.1.ranOut = false) (hva : vaStart.toNat % 2 ^ 32 + size.toNat ≤ 2 ^ 32)
    (hoff : vaStart.toNat % 4096 = paStart.toNat % 4096) (hf : descAddr flags = 0) :
    RegionMapped e (A.root r) vaStart paStart size ↔
      LastPageMapped m.mem (A.root r) vaStart paStart size := by
  obtain ⟨hturns,hended,hmap⟩ := regionLoop_ended h hslots he hr
  rw [hmap] at hr
  have hn : pageTurns size ≤ 2 ^ 20 := by omega
  have ho : vaStart.toNat % 4096 < 4096 := Nat.mod_lt _ (by decide)
  constructor
  · rintro ⟨_,hbytes⟩
    rw [hmap] at hbytes
    by_cases h0 : size = 0
    · exact Or.inl h0
    refine Or.inr ⟨region_bound h0 hbytes,?_⟩
    by_cases hall : pagesOf (vaStart.toNat % 4096) size.toNat = pagesOf 0 size.toNat
    · exact Or.inl hall
    · have hk : size.toNat - 1 < size.toNat := Nat.sub_one_lt (toNat_pos h0).ne'
      have hq := pagesOf_last (toNat_pos h0) hall
      rw [← pageTurns_eq] at hq
      rw [last_byte h0]
      exact Or.inr ((region_left h hn hr hva hk hq _).mp (hbytes _ hk))
  · intro hcond
    refine ⟨hended,fun k hk => ?_⟩
    rw [hmap]
    have h0 : size ≠ 0 := by
      rintro rfl
      exact absurd hk (Nat.not_lt_zero k)
    obtain ⟨hpa,hcond⟩ := hcond.resolve_left h0
    by_cases hq : (vaStart.toNat % 4096 + k) / 4096 < pageTurns size
    · exact region_reached h hn hr hva hoff hf hpa hk hq
    · rw [region_left h hn hr hva hk hq]
      rw [pageTurns_eq] at hq
      rcases hcond with hall | hbefore
      · exact absurd (pagesOf_reached hk hall) hq
      · rw [last_byte h0] at hbefore
        exact hbefore.of_last hva hk hpa (pagesOf_left ho hk hq)

theorem seeMapRegionLoop_eq (h : MapperOk A m) (r : ρ) (vaStart paStart size flags : Word) :
    seeMapRegionLoop A (A.root r) vaStart paStart size flags m =
      mapRegionLoop A 0 (A.root r + 0) vaStart paStart size flags m := by
  have heq := (seeMapPages_eq h r (vaStart &&& ~~~0xFFF) (paStart &&& ~~~0xFFF) flags
    (min (pageTurns size) (2 ^ 19))).1
  unfold seeMapRegionLoop mapRegionLoop regionLoop
  dsimp only at heq ⊢
  rw [root_add_zero,heq]

end Bytes

/-- With enough tables a region is mapped, to its last byte, exactly when the rounded start
costs it no page, or that page was mapped before. -/
theorem mapRegion_covers_iff (img : KernelImage) (see : TableArea Unit) (hsee : see.slots = 64)
    {vaStart paStart size flags : Word} (hva : vaStart.toNat % 2 ^ 32 + size.toNat ≤ 2 ^ 32)
    (hoff : vaStart.toNat % 4096 = paStart.toNat % 4096) (hf : descAddr flags = 0) :
    (∀ m, TablesOk img.tables m → ∀ off r,
      let e := mapRegionLoop img.tables off (img.tables.root r + off) vaStart paStart size flags m
      e.1.ranOut = false →
        (RegionMapped e (img.tables.root r) vaStart paStart size ↔
          LastPageMapped m.mem (img.tables.root r) vaStart paStart size)) ∧
    ∀ m, MapperOk see m →
      let e := seeMapRegionLoop see (see.root ()) vaStart paStart size flags m
      e.1.ranOut = false →
        (RegionMapped e (see.root ()) vaStart paStart size ↔
          LastPageMapped m.mem (see.root ()) vaStart paStart size) := by
  refine ⟨fun m h off r => ?_,fun m h => ?_⟩
  · intro e hr
    have hslots : img.tables.slots ≤ 64 := img.slots.trans_le (by decide)
    exact region_mapped_iff h hslots rfl hr hva hoff hf
  · intro e hr
    have he : e = mapRegionLoop see 0 (see.root () + 0) vaStart paStart size flags m :=
      seeMapRegionLoop_eq h () vaStart paStart size flags
    have hr₀ : m.ranOut = false := by
      rw [he] at hr
      exact foldl_mapPage_ranOut hr
    exact region_mapped_iff (h.ok hr₀) hsee.le he hr hva hoff hf

/-- Five pages from late in a page on, across a 2 MB boundary. -/
theorem mapRegion_covers_iff_crossing :
    let r := testKernelImage.tables.root .kernelL1
    RegionMapped (mapRegionLoop testKernelImage.tables kernelVirtBase (r + kernelVirtBase)
        0x401FEF00 0x401FEF00 0x4080 heapFlags Tables.bss) r 0x401FEF00 0x401FEF00 0x4080 ∧
      RegionMapped (seeMapRegionLoop testBootImage.see (testBootImage.see.root ())
        0x401FEF00 0x401FEF00 0x4080 heapFlags Tables.bss) (testBootImage.see.root ())
          0x401FEF00 0x401FEF00 0x4080 := by
  intro r
  obtain ⟨hkernel,hsee⟩ := @mapRegion_covers_iff testKernelImage testBootImage.see rfl
    0x401FEF00 0x401FEF00 0x4080 heapFlags (by decide) (by decide) (by decide)
  have hok : TablesOk testKernelImage.tables Tables.bss := tablesOk_of_zero fun _ _ => rfl
  have hall : pagesOf ((0x401FEF00 : Word).toNat % 4096) (0x4080 : Word).toNat =
      pagesOf 0 (0x4080 : Word).toNat := by
    decide
  have hr : (mapRegionLoop testKernelImage.tables kernelVirtBase (r + kernelVirtBase)
      0x401FEF00 0x401FEF00 0x4080 heapFlags Tables.bss).1.ranOut = false := by decide +kernel
  have hr' : (seeMapRegionLoop testBootImage.see (testBootImage.see.root ())
      0x401FEF00 0x401FEF00 0x4080 heapFlags Tables.bss).1.ranOut = false := by decide +kernel
  have hlast : ∀ root, LastPageMapped Tables.bss.mem root 0x401FEF00 0x401FEF00 0x4080 :=
    fun _ => Or.inr ⟨by decide,Or.inl hall⟩
  exact ⟨(hkernel Tables.bss hok kernelVirtBase .kernelL1 hr).mpr (hlast _),
    (hsee Tables.bss (bss_mapperOk _) hr').mpr (hlast _)⟩

/-- The call of kernel_main_thread for an app_entry 16 bytes into its page: the last page,
in which the stack of app_entry starts, is left out. -/
theorem appStack_unmapped :
    let r := testKernelImage.tables.root .userL1
    let e := mapRegionLoop testKernelImage.tables kernelVirtBase (r + kernelVirtBase)
      0x402D0010 0x402D0010 0x29000 (protNormalMem ||| apEl0RwElxRw ||| ptePxn) Tables.bss
    e.1.ranOut = false ∧ walk e.1.mem r (0x402D0010 + BitVec.ofNat 64 0x28FFF) = none ∧
      ¬ RegionMapped e r 0x402D0010 0x402D0010 0x29000 := by
  intro r e
  have hok : TablesOk testKernelImage.tables Tables.bss := tablesOk_of_zero fun _ _ => rfl
  have hlt : pageTurns 0x29000 < 2 ^ 19 := by decide
  have hr : e.1.ranOut = false := by
    have htakes := mapCallAt_takes hok rfl (c := .mapRegionVirtual .userL1 0x402D0010 0x402D0010
      0x29000 (protNormalMem ||| apEl0RwElxRw ||| ptePxn)) (by decide) (by decide) kernelVirtBase
    simp only [e,mapRegionLoop_of_lt hlt]
    exact htakes.2
  have hnone : walk e.1.mem r (0x402D0010 + BitVec.ofNat 64 0x28FFF) = none := by
    simp only [e,mapRegionLoop_of_lt hlt] at hr ⊢
    rw [region_walk hok (by decide) hr (by decide) (by decide),if_neg (by decide)]
    exact walk_of_zero (fun _ => rfl) _
  refine ⟨hr,hnone,fun h => ?_⟩
  obtain ⟨d,hd,_⟩ := h.bytes 0x28FFF (by decide)
  rw [hnone] at hd
  cases hd

end Arm64
