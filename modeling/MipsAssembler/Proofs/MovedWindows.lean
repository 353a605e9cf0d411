import MipsAssembler.Proofs.Image

/-!
# Windows that options move

Options move the start of the user's windows; all ends, and the windows of the kernel, stay where
they are. The window of the data may then begin inside that of the text, and that is the only way
in which two windows can have an address in common (`windows_shared`).

What is placed in one window is not seen from the other. Hence entries of a program have memory of
their own except where these two windows meet (`assemble_moved_blocks`): below the end of the text, an
instruction and a payload may lie on the same bytes, and in the image the payload is what is left
(`assemble_overlap`).
-/

namespace MipsAssembler

open ByteString Outcome

variable {o : CommandLine.Options} {w : Windows}

/-- The address lies in the window of the user's text and in that of the user's data. -/
def Windows.Shared (w : Windows) (x : Nat) : Prop :=
  w.userText.start.toNat ≤ x ∧ w.userData.start.toNat ≤ x ∧ x < w.userText.stop.toNat

/-- The categories are the user's text and the user's data, in one order or the other. -/
def Category.IsUserPair (k k' : Category) : Prop :=
  k = .text .user ∧ k' = .data .user ∨ k = .data .user ∧ k' = .text .user

theorem windows_kernel (h : o.windows = .ok w) :
    w.kernelText = .kernelText ∧ w.kernelData = .kernelData := by
  unfold CommandLine.Options.windows at h
  obtain ⟨userText, -, h⟩ := bind_eq_ok.1 h
  obtain ⟨userData, -, h⟩ := bind_eq_ok.1 h
  obtain rfl := pure_eq_ok.1 h
  exact ⟨rfl, rfl⟩

/-- The windows of different categories have no address in common, except for those of the user's
text and data. -/
theorem windows_shared (h : o.windows = .ok w) {k k' : Category} (hne : k ≠ k') {x : Nat}
    (hx : (w.region k).start.toNat ≤ x ∧ x < (w.region k).stop.toNat)
    (hx' : (w.region k').start.toNat ≤ x ∧ x < (w.region k').stop.toNat) :
    Category.IsUserPair k k' ∧ w.Shared x := by
  obtain ⟨hkernelText, hkernelData⟩ := windows_kernel h
  have htext : w.userText.stop.toNat = 0x10000000 :=
    congrArg UInt32.toNat (windows_stop h (.text .user))
  have hdata : w.userData.stop.toNat = 0x80000000 :=
    congrArg UInt32.toNat (windows_stop h (.data .user))
  rcases k with (_ | _) | (_ | _) <;> rcases k' with (_ | _) | (_ | _) <;>
    simp only [Windows.region, hkernelText, hkernelData, Region.kernelText, Region.kernelData,
      UInt32.reduceToNat, ne_eq, not_true_eq_false] at hne hx hx'
  case text.user.data.user => exact ⟨.inl ⟨rfl, rfl⟩, hx.1, hx'.1, hx.2⟩
  case data.user.text.user => exact ⟨.inr ⟨rfl, rfl⟩, hx'.1, hx.1, hx'.2⟩
  -- all other windows end where the next one begins, or below
  all_goals
    exfalso
    omega

theorem Block.Within.bounds {r : Region} {b : Block} (h : b.Within r) {x : Nat} (hx : b.Covers x) :
    r.start.toNat ≤ x ∧ x < r.stop.toNat := by
  obtain ⟨hstart, hstop⟩ := h
  obtain ⟨hle, hlt⟩ := hx
  omega

/-- A byte of entries of different categories lies in the windows of the user's text and data. -/
theorem Program.shared_of_covers {p q : Program} {t : SymbolTable} (ho : o.windows = .ok w)
    (h : p.resolve w = .ok (q, t)) {k k' : Category} (hne : k ≠ k') {b b' : Block}
    (hb : b ∈ q.blocks k) (hb' : b' ∈ q.blocks k') {x : Nat} (hx : b.Covers x) (hx' : b'.Covers x) :
    Category.IsUserPair k k' ∧ w.Shared x := by
  have hwithin : b.Within (w.region k) :=
    (resolve_category_blocks h (windows_stop_le ho k)).2 b hb hx.size_ne_zero
  have hwithin' : b'.Within (w.region k') :=
    (resolve_category_blocks h (windows_stop_le ho k')).2 b' hb' hx'.size_ne_zero
  exact windows_shared ho hne (hwithin.bounds hx) (hwithin'.bounds hx')

/-- **Entries have memory of their own where the windows do.** Whatever options ask for, the entries of
a category have no byte in common when a source is assembled. Two entries of different categories
have one only if they are an instruction and a payload of the user, at an address in the windows of
both. If the data starts where the text ends or above, all entries have memory of their own. -/
theorem assemble_moved_blocks {src : ByteString} {r : Assembly} (ho : o.windows = .ok w)
    (h : assemble w src = .ok r) :
    (∀ k, (r.program.blocks k).Pairwise Block.Apart) ∧
    (∀ k k', k ≠ k' → ∀ b ∈ r.program.blocks k, ∀ b' ∈ r.program.blocks k', ∀ x,
      b.Covers x → b'.Covers x → Category.IsUserPair k k' ∧ w.Shared x) ∧
    (w.userText.stop ≤ w.userData.start →
      (Category.all.flatMap r.program.blocks).Pairwise Block.Apart) := by
  obtain ⟨p, -, hresolve, -⟩ := assemble_eq_ok h
  have hcategory : ∀ k, (r.program.blocks k).Pairwise Block.Apart := fun k =>
    (Program.resolve_category_blocks hresolve (windows_stop_le ho k)).1
  refine ⟨hcategory, fun k k' hne b hb b' hb' x => Program.shared_of_covers ho hresolve hne hb hb',
    fun hle => ?_⟩
  have hall : Category.all.Nodup := by decide
  refine List.pairwise_flatMap.2 ⟨fun k _ => hcategory k, hall.imp ?_⟩
  intro k k' hne b hb b' hb' x hx hx'
  obtain ⟨-, -, hdata, htext⟩ := Program.shared_of_covers ho hresolve hne hb hb' hx hx'
  rw [UInt32.le_iff_toNat_le] at hle
  omega

/-- Options that move both windows and leave them apart. -/
def movedOptions : CommandLine.Options where
  textStart := "0x00400000"
  dataStart := "0x10010000"

/-- Text and data of the user and of the kernel, some of them at given addresses. -/
def movedSource : ByteString :=
  ".text\nmain: la $a0, list\n.text 0x00400000\nj main\n.ktext\nnop\n" ++
    ".data 0x10010003\nlist: .byte 1, 2\n.data\n.word 5\n.kdata\n.half 6\n"

/-- First fit goes around the segments with a start in both windows. -/
theorem assemble_moved_blocks_apart :
    ∃ w r, movedOptions.windows = .ok w ∧ assemble w movedSource = .ok r ∧
      r.program.userText.map (·.startAddress) = [0x00400004, 0x00400000] ∧
      r.program.userData.map (·.startAddress) = [0x10010003, 0x1001000B] ∧
      w.userText.stop ≤ w.userData.start ∧
      (Category.all.flatMap r.program.blocks).Pairwise Block.Apart := by
  have hvalues : (movedOptions.windows.toOption.bind fun w =>
      (assemble w movedSource).toOption.map fun r =>
        (r.program.userText.map (·.startAddress), r.program.userData.map (·.startAddress),
          decide (w.userText.stop ≤ w.userData.start))) =
      some ([0x00400004, 0x00400000], [0x10010003, 0x1001000B], true) := by decide +kernel
  obtain ⟨w, hw, hvalues⟩ := Option.bind_eq_some_iff.1 hvalues
  obtain ⟨r, hr, hvalues⟩ := Option.map_eq_some_iff.1 hvalues
  obtain ⟨htext, hvalues⟩ := Prod.mk.inj hvalues
  obtain ⟨hdata, hle⟩ := Prod.mk.inj hvalues
  have hwindows := eq_ok_of_toOption hw
  have hassemble := eq_ok_of_toOption hr
  have hle := of_decide_eq_true hle
  exact ⟨w, r, hwindows, hassemble, htext, hdata, hle,
    (assemble_moved_blocks hwindows hassemble).2.2 hle⟩

/-- Options that move the data onto the text. -/
def overlappingOptions : CommandLine.Options where
  dataStart := "0x0A000000"

/-- An instruction and a word at the same address. -/
def overlappingSource : ByteString :=
  ".text 0x0A000000\naddu $t0, $t1, $t2\n.data 0x0A000000\n.word 5\n"

/-- If the windows have addresses in common, entries can have bytes in common. The source is assembled
without an error, and the word of the instruction is lost. -/
theorem assemble_overlap :
    ∃ w r, overlappingOptions.windows = .ok w ∧ assemble w overlappingSource = .ok r ∧
      r.image.loadWord? 0x0A000000 = some 5 ∧
      ¬(Category.all.flatMap r.program.blocks).Pairwise Block.Apart := by
  have hvalues : (overlappingOptions.windows.toOption.bind fun w =>
      (assemble w overlappingSource).toOption.map fun r =>
        (r.image.loadWord? 0x0A000000,
          (Category.all.flatMap r.program.blocks).map fun b => (b.start, b.size))) =
      some (some 5, [(0x0A000000, 4), (0x0A000000, 4)]) := by decide +kernel
  obtain ⟨w, hw, hvalues⟩ := Option.bind_eq_some_iff.1 hvalues
  obtain ⟨r, hr, hvalues⟩ := Option.map_eq_some_iff.1 hvalues
  obtain ⟨hword, hblocks⟩ := Prod.mk.inj hvalues
  refine ⟨w, r, eq_ok_of_toOption hw, eq_ok_of_toOption hr, hword, fun hapart => ?_⟩
  have hpairs : [(0x0A000000, 4), (0x0A000000, 4)].Pairwise fun b b' : Nat × Nat =>
      Block.Apart ⟨b.1, b.2⟩ ⟨b'.1, b'.2⟩ := by
    rw [← hblocks, List.pairwise_map]
    exact hapart
  have hcovers : Block.Covers ⟨0x0A000000, 4⟩ 0x0A000000 := ⟨by decide, by decide⟩
  exact (List.pairwise_cons.1 hpairs).1 _ (List.mem_singleton_self _) _ hcovers hcovers

end MipsAssembler
