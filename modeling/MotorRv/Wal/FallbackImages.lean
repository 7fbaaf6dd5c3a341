import MotorRv.Core.FreshLoad
import MotorRv.Wal.Recovery

/-!
# Falling back to an older image

`recover` tries the images from the newest on and works on one state and one arena throughout. A
load that fails leaves its traces in both. Where the arena has room, none of them outlives the first
load that succeeds: recovery then ends as if the images that failed, and whatever the state held
before, had never been.

`Answers` is what makes "as if" precise: with room enough, what a load of an image answers does not
depend on the state it is loaded into nor on the rest of the arena, by the result on fresh loads. So
an image is either broken or usable, for good (`Answers.unique`, `Broken.not_usable`), and
`loadImages_filter` is an induction over the list of images from the newest on.

After the images the replay is the same but for the flag that says that an older image was used, and
nothing in the replay looks at it (`readSegs_withFallback`). The room in the arena is a hypothesis
(`Roomy`, `HasRoom`): the arena is not rolled back after a failed load, and with little room a
broken file can keep a good one from being loaded.
-/

namespace Lib

/-- Sorting a part of a list is taking the part of the sorted list. -/
theorem filter_insertionSort {α : Type*} (r : α → α → Prop) [DecidableRel r] [Std.Total r]
    [IsTrans α r] (p : α → Bool) (l : List α) :
    (l.insertionSort r).filter p = (l.filter p).insertionSort r := by
  have hinsert : ∀ (a : α) (l : List α), l.Pairwise r →
      (l.orderedInsert r a).filter p =
        if p a then (l.filter p).orderedInsert r a else l.filter p := by
    intro a l
    induction l with
    | nil => simp [List.filter_cons]
    | cons b l ih =>
      intro hl
      obtain ⟨hb, hl⟩ := List.pairwise_cons.mp hl
      rw [List.orderedInsert_cons]
      split_ifs with hab ha ha
      · -- `a` goes before `b`, and so before whatever is kept of the rest
        rw [List.filter_cons_of_pos ha]
        cases hkept : (b :: l).filter p with
        | nil => rfl
        | cons c kept =>
          have hc : c ∈ b :: l := List.mem_of_mem_filter (hkept ▸ List.mem_cons_self)
          have hac : r a c := by
            obtain rfl | hc := List.mem_cons.mp hc
            · exact hab
            · exact trans_of r hab (hb c hc)
          rw [List.orderedInsert_cons_of_le r kept hac]
      · rw [List.filter_cons_of_neg ha]
      · by_cases hpb : p b
        · rw [List.filter_cons_of_pos hpb, List.filter_cons_of_pos hpb, ih hl, if_pos ha,
            List.orderedInsert_of_not_le r _ hab]
        · rw [List.filter_cons_of_neg hpb, List.filter_cons_of_neg hpb, ih hl, if_pos ha]
      · by_cases hpb : p b
        · rw [List.filter_cons_of_pos hpb, List.filter_cons_of_pos hpb, ih hl, if_neg ha]
        · rw [List.filter_cons_of_neg hpb, List.filter_cons_of_neg hpb, ih hl, if_neg ha]
  induction l with
  | nil => rfl
  | cons a l ih =>
    rw [List.insertionSort_cons, hinsert a _ (List.pairwise_insertionSort r l), ih]
    split_ifs with ha
    · rw [List.filter_cons_of_pos ha, List.insertionSort_cons]
    · rw [List.filter_cons_of_neg ha]

end Lib

namespace MotorRv

open Lib

/-! ### Listing fewer files -/

section Listing

variable {dir : List DirEntry} {part : ℕ} (keep : DirEntry → Bool)

/-- Leaving files out of a directory leaves them out of the list. -/
theorem listaArquivos_filter (pre suf : List Char) :
    listaArquivos (dir.filter keep) pre suf =
      (listaArquivos dir pre suf).filter fun item => keep item.entry := by
  induction dir with
  | nil => rfl
  | cons ent dir ih =>
    have hcons : ∀ l, listaArquivos (ent :: l) pre suf =
        listaArquivos [ent] pre suf ++ listaArquivos l pre suf := fun l =>
      List.filterMap_append (l := [ent])
    -- an entry is listed as itself
    have hone : ∀ item ∈ listaArquivos [ent] pre suf, item.entry = ent := by
      intro item hitem
      obtain ⟨e, he, hsome⟩ := List.mem_filterMap.mp hitem
      obtain rfl := List.mem_singleton.mp he
      dsimp only at hsome
      split_ifs at hsome
      obtain rfl := Option.some.inj hsome
      rfl
    rw [hcons, List.filter_append, ← ih]
    by_cases hkeep : keep ent
    · rw [List.filter_cons_of_pos hkeep, hcons]
      congr 1
      refine (List.filter_eq_self.mpr fun item hitem => ?_).symm
      rw [hone item hitem]
      exact hkeep
    · rw [List.filter_cons_of_neg hkeep]
      have hnone : (listaArquivos [ent] pre suf).filter (fun item => keep item.entry) = [] := by
        refine List.filter_eq_nil_iff.mpr fun item hitem => ?_
        rw [hone item hitem]
        exact hkeep
      rw [hnone, List.nil_append]

/-- The images of a directory without some files. -/
theorem snaps_filter : snaps (dir.filter keep) part =
    (snaps dir part).filter fun item => keep item.entry := by
  have : Std.Total fun a b : FileItem => b.lsn ≤ a.lsn := ⟨fun a b => le_total b.lsn a.lsn⟩
  have : IsTrans FileItem fun a b => b.lsn ≤ a.lsn := ⟨fun _ _ _ h h' => h'.trans h⟩
  rw [snaps, snaps, listaArquivos_filter, filter_insertionSort]

/-- The segments of a directory without some files. -/
theorem segs_filter : segs (dir.filter keep) part =
    (segs dir part).filter fun item => keep item.entry := by
  have : Std.Total fun a b : FileItem => a.lsn ≤ b.lsn := ⟨fun a b => le_total a.lsn b.lsn⟩
  have : IsTrans FileItem fun a b => a.lsn ≤ b.lsn := ⟨fun _ _ _ h h' => h.trans h'⟩
  rw [segs, segs, listaArquivos_filter, filter_insertionSort]

theorem mem_snaps {snap : FileItem} :
    snap ∈ snaps dir part ↔ snap ∈ listaArquivos dir (snapPrefix part) ['.', 'i', 'm', 'g'] :=
  List.mem_insertionSort _

theorem mem_segs {seg : FileItem} :
    seg ∈ segs dir part ↔ seg ∈ listaArquivos dir (segPrefix part) ['.', 'w', 'a', 'l'] :=
  List.mem_insertionSort _

/-- The name of a listed file has the prefix, and stands in the directory. -/
theorem of_mem_listaArquivos {pre suf : List Char} {item : FileItem}
    (h : item ∈ listaArquivos dir pre suf) : item.entry ∈ dir ∧ pre <+: item.entry.name := by
  obtain ⟨e, he, hsome⟩ := List.mem_filterMap.mp h
  dsimp only at hsome
  split_ifs at hsome with _ hpre
  obtain rfl := Option.some.inj hsome
  exact ⟨he, List.isPrefixOf_iff_prefix.mp hpre⟩

/-- Dropping files whose names begin with `state_` drops no segment. -/
theorem segs_filter_of_images
    (hkeep : ∀ e ∈ dir, keep e = false → snapPrefix part <+: e.name) :
    segs (dir.filter keep) part = segs dir part := by
  rw [segs_filter]
  refine List.filter_eq_self.mpr fun seg hseg => ?_
  obtain ⟨hmem, hpre⟩ := of_mem_listaArquivos (mem_segs.mp hseg)
  by_contra hdrop
  obtain ⟨rest, hrest⟩ := hpre
  obtain ⟨rest', hrest'⟩ := hkeep seg.entry hmem (by simpa using hdrop)
  rw [← hrest, snapPrefix, segPrefix] at hrest'
  simp at hrest'

end Listing

/-! ### Images that fail and images that load -/

/-- The arena grants what loading the image asks for. -/
def HasRoom (arena : Arena) (image : Bytes) : Prop :=
  ∀ h, loadHeader image = .ok h → ArenaFits arena h.cap

/-- Some load of the image with room enough gave this answer; then all do. -/
def Answers (image : Bytes) (ok : Bool) : Prop :=
  ∃ s arena st s' arena', HasRoom arena image ∧
    loadStateImage s arena image = .ok (st, s', arena') ∧ st.isOk = ok

/-- A file that is no image: it cannot be mapped, is empty, or its load fails. -/
def Broken (e : DirEntry) : Prop :=
  ∀ image, e.content = some image → image = [] ∨ Answers image false

/-- A file with an image that loads. -/
def Usable (e : DirEntry) : Prop :=
  ∃ image, e.content = some image ∧ image ≠ [] ∧ Answers image true

/-- The arena has room for one image after the other. -/
def Roomy : Arena → List FileItem → Prop
  | _, [] => True
  | arena, snap :: rest =>
    match snap.entry.content with
    | none | some [] => Roomy arena rest
    | some image => HasRoom arena image ∧ Roomy (arena.afterLoad image) rest

section Images

variable {image : Bytes} {s s' t : PartitionState} {a a' b : Arena} {st : Status}

/-- With room for it, a load answers by the image alone. -/
theorem Answers.of_run (ha : HasRoom a image)
    (hrun : loadStateImage s a image = .ok (st, s', a')) : Answers image st.isOk :=
  ⟨s, a, st, s', a', ha, hrun, rfl⟩

/-- Every load with room enough gives the answer. -/
theorem Answers.run {ok : Bool} (h : Answers image ok) (t : PartitionState) (hb : HasRoom b image) :
    ∃ st t', loadStateImage t b image = .ok (st, t', b.afterLoad image) ∧ st.isOk = ok := by
  obtain ⟨s, a, st, s', a', ha, hrun, hok⟩ := h
  obtain ⟨t', b', hrun', -⟩ := load_anywhere hrun t b ha hb
  exact ⟨st, t', arena_of_load hrun' hb ▸ hrun', hok⟩

/-- An image has one answer. -/
theorem Answers.unique {ok ok' : Bool} (h : Answers image ok) (h' : Answers image ok') :
    ok = ok' := by
  obtain ⟨s, a, st, s', a', ha, hrun, rfl⟩ := h
  obtain ⟨st', t', hrun', rfl⟩ := h'.run s ha
  rw [hrun] at hrun'
  rw [(Prod.mk.inj (Except.ok.inj hrun')).1]

/-- A broken image is never loaded. -/
theorem Broken.not_usable {e : DirEntry} (h : Broken e) : ¬ Usable e := by
  rintro ⟨image, himage, hne, hload⟩
  obtain hnil | hfail := h image himage
  · exact hne hnil
  · exact Bool.false_ne_true (hfail.unique hload)

end Images

/-- An image is not empty. -/
theorem imageOf_ne_nil (s : PartitionState) : imageOf s ≠ [] := fun hnil => by
  have hlen := congrArg List.length hnil
  rw [imageOf, List.length_append, StateImageHeader.length_encode] at hlen
  exact absurd hlen (by simp [kStateImageHeaderBytes])

/-! ### The loop over the images -/

section LoadImages

/-- What the loop does with a file: it passes it over, or it loads the image and goes on if that
fails. -/
theorem loadImages_cons (snap : FileItem) :
    ((∀ image, snap.entry.content = some image → image = []) ∧ ∀ rest,
      (∀ i s arena, loadImages i (snap :: rest) s arena = loadImages (i + 1) rest s arena) ∧
      ∀ arena, Roomy arena (snap :: rest) ↔ Roomy arena rest) ∨
    ∃ image, snap.entry.content = some image ∧ image ≠ [] ∧ ∀ rest,
      (∀ i s arena, loadImages i (snap :: rest) s arena =
        (loadStateImage s arena image).bind fun out =>
          if out.1.isOk then .ok (some i, out.2.1, out.2.2)
          else loadImages (i + 1) rest out.2.1 out.2.2) ∧
      ∀ arena, Roomy arena (snap :: rest) ↔
        HasRoom arena image ∧ Roomy (arena.afterLoad image) rest := by
  rcases hc : snap.entry.content with _ | _ | ⟨x, image⟩
  · refine .inl ⟨fun image h => ?_, fun rest => ⟨fun _ _ _ => ?_, fun _ => ?_⟩⟩
    · cases h
    · rw [loadImages, hc]
    · rw [Roomy, hc]
  · refine .inl ⟨fun image h => ?_, fun rest => ⟨fun _ _ _ => ?_, fun _ => ?_⟩⟩
    · exact (Option.some.inj h).symm
    · rw [loadImages, hc]
    · rw [Roomy, hc]
  · refine .inr ⟨x :: image, rfl, List.cons_ne_nil _ _, fun rest => ⟨fun _ _ _ => ?_, fun _ => ?_⟩⟩
    · rw [loadImages, hc]
      rfl
    · rw [Roomy, hc]

variable {p : FileItem → Bool} {a a' b : Arena} {s s' t : PartitionState}

/-- If no image is loaded, all are broken. -/
theorem broken_of_loadImages (snaps : List FileItem) : ∀ {i : ℕ} {s : PartitionState} {a : Arena},
    Roomy a snaps → loadImages i snaps s a = .ok (none, s', a') →
      ∀ snap ∈ snaps, Broken snap.entry := by
  induction snaps with
  | nil => exact fun _ _ _ h => absurd h List.not_mem_nil
  | cons snap rest ih =>
    intro i s a hroom hrun
    obtain ⟨hempty, hcons⟩ | ⟨image, hc, -, hcons⟩ := loadImages_cons snap
    · obtain ⟨hskip, hroomy⟩ := hcons rest
      have hbroken : Broken snap.entry := fun image h => .inl (hempty image h)
      rw [hskip] at hrun
      exact List.forall_mem_cons.mpr ⟨hbroken, ih ((hroomy a).mp hroom) hrun⟩
    · obtain ⟨hload, hroomy⟩ := hcons rest
      obtain ⟨ha, hrest⟩ := (hroomy a).mp hroom
      rw [hload] at hrun
      obtain ⟨⟨st, s₁, a₁⟩, hrun₁, hgo⟩ := except_bind_eq_ok.mp hrun
      dsimp only at hgo
      by_cases hok : st.isOk
      · rw [if_pos hok] at hgo
        cases hgo
      · rw [if_neg hok] at hgo
        obtain rfl := arena_of_load hrun₁ ha
        have hfail : Answers image false := eq_false_of_ne_true hok ▸ .of_run ha hrun₁
        refine List.forall_mem_cons.mpr ⟨fun image' h => .inr ?_, ih hrest hgo⟩
        obtain rfl := Option.some.inj (hc.symm.trans h)
        exact hfail

/-- **The first image that loads.** Dropping broken files from the list, and starting from another
state and another arena, leads to the same state; only the number of files passed over falls. -/
theorem loadImages_filter (snaps : List FileItem) : ∀ {i j : ℕ} (i' : ℕ) {s : PartitionState}
    (t : PartitionState) {a b : Arena}, (∀ snap ∈ snaps, p snap = false → Broken snap.entry) →
      Roomy a snaps → Roomy b (snaps.filter p) → loadImages i snaps s a = .ok (some j, s', a') →
      ∃ j' b', loadImages i' (snaps.filter p) t b = .ok (some j', s', b') ∧ i ≤ j ∧ i' ≤ j' ∧
        j' + i ≤ j + i' ∧ ((∀ snap ∈ snaps, Broken snap.entry → p snap = false) → j' = i') := by
  induction snaps with
  | nil =>
    intro i j i' s t a b _ _ _ hrun
    cases hrun
  | cons snap rest ih =>
    intro i j i' s t a b hp hroom hroom' hrun
    obtain ⟨hdrop, hp⟩ := List.forall_mem_cons.mp hp
    have hkept : ∀ {j' : ℕ}, p snap = true → Broken snap.entry →
        (∀ x ∈ snap :: rest, Broken x.entry → p x = false) → j' = i' := fun hkeep hbroken h =>
      absurd ((h snap List.mem_cons_self hbroken).symm.trans hkeep) Bool.false_ne_true
    obtain ⟨hempty, hcons⟩ | ⟨image, hc, hne, hcons⟩ := loadImages_cons snap
    · obtain ⟨hskip, hroomy⟩ := hcons rest
      -- a file that cannot be read or is empty is skipped on either side
      have hbroken : Broken snap.entry := fun image h => .inl (hempty image h)
      rw [hskip] at hrun
      have hroom := (hroomy a).mp hroom
      by_cases hkeep : p snap = true
      · rw [List.filter_cons_of_pos hkeep] at hroom' ⊢
        obtain ⟨hskip', hroomy'⟩ := hcons (rest.filter p)
        obtain ⟨j', b', hrun', hij, hij', hle, -⟩ :=
          ih (i' + 1) t hp hroom ((hroomy' b).mp hroom') hrun
        exact ⟨j', b', (hskip' _ _ _).trans hrun', by omega, by omega, by omega,
          hkept hkeep hbroken⟩
      · rw [List.filter_cons_of_neg hkeep] at hroom' ⊢
        obtain ⟨j', b', hrun', hij, hij', hle, hall⟩ := ih i' t hp hroom hroom' hrun
        exact ⟨j', b', hrun', by omega, hij', by omega, fun h => hall (List.forall_mem_cons.mp h).2⟩
    · obtain ⟨hload, hroomy⟩ := hcons rest
      obtain ⟨ha, hroom⟩ := (hroomy a).mp hroom
      rw [hload] at hrun
      obtain ⟨⟨st, s₁, a₁⟩, hrun₁, hgo⟩ := except_bind_eq_ok.mp hrun
      obtain rfl := arena_of_load hrun₁ ha
      dsimp only at hgo
      by_cases hok : st.isOk = true
      · -- the image loads, so it is kept
        rw [if_pos hok] at hgo
        obtain ⟨hj, hs⟩ := Prod.mk.inj (Except.ok.inj hgo)
        obtain ⟨rfl, -⟩ := Prod.mk.inj hs
        obtain rfl := Option.some.inj hj
        have husable : Usable snap.entry := ⟨image, hc, hne, hok ▸ .of_run ha hrun₁⟩
        have hkeep : p snap = true := by
          by_contra hneg
          exact (hdrop (eq_false_of_ne_true hneg)).not_usable husable
        rw [List.filter_cons_of_pos hkeep] at hroom' ⊢
        obtain ⟨hload', hroomy'⟩ := hcons (rest.filter p)
        obtain ⟨t', b', hrun', hsame⟩ := load_anywhere hrun₁ t b ha ((hroomy' b).mp hroom').1
        refine ⟨i', b', ?_, le_rfl, le_rfl, by omega, fun _ => rfl⟩
        rw [hload', hrun', hsame hok]
        exact if_pos hok
      · rw [if_neg hok] at hgo
        -- the image is refused: kept, it is refused there too; dropped, only the counts differ
        have hfail : Answers image false := eq_false_of_ne_true hok ▸ .of_run ha hrun₁
        have hbroken : Broken snap.entry := fun image' h =>
          .inr (Option.some.inj (hc.symm.trans h) ▸ hfail)
        by_cases hkeep : p snap = true
        · rw [List.filter_cons_of_pos hkeep] at hroom' ⊢
          obtain ⟨hload', hroomy'⟩ := hcons (rest.filter p)
          obtain ⟨hb, hroom'⟩ := (hroomy' b).mp hroom'
          obtain ⟨st', t', hrun', hok'⟩ := hfail.run t hb
          obtain ⟨j', b', hrest', hij, hij', hle, -⟩ :=
            ih (i' + 1) t' hp hroom hroom' hgo
          refine ⟨j', b', ?_, by omega, by omega, by omega, hkept hkeep hbroken⟩
          rw [hload', hrun', ← hrest']
          exact if_neg (by simp [hok'])
        · rw [List.filter_cons_of_neg hkeep] at hroom' ⊢
          obtain ⟨j', b', hrun', hij, hij', hle, hall⟩ :=
            ih i' t hp hroom hroom' hgo
          exact ⟨j', b', hrun', by omega, hij', by omega,
            fun h => hall (List.forall_mem_cons.mp h).2⟩

end LoadImages

/-! ### The replay looks past the flag -/

namespace Replay

/-- The variables with the flag of the fallback set otherwise. -/
def withFallback (u : Bool) (v : Replay) : Replay :=
  { v with report := { v.report with usedFallbackImage := u } }

variable (u : Bool) (v : Replay)

/-- The answers to a record do not depend on the note of the fallback. -/
theorem answered_withFallback (r : SegmentReader) (ev : LogRecord) (st : Status)
    (s : PartitionState) : (v.withFallback u).answered r ev st s =
      ((v.answered r ev st s).1, (v.answered r ev st s).2.withFallback u) := by
  unfold answered
  split_ifs
  all_goals rfl

/-- Neither does reading a segment. -/
theorem readUpTo_withFallback (n : ℕ) : ∀ (r : SegmentReader) (v : Replay),
    readUpTo n r (v.withFallback u) = ((readUpTo n r v).1,
      (readUpTo n r v).2.map fun out => (out.1, out.2.1, out.2.2.withFallback u)) := by
  induction n with
  | zero => exact fun _ _ => rfl
  | succ n ih =>
    intro r v
    rw [readUpTo, readUpTo]
    rcases r.next with ⟨_ | ev, r'⟩
    · rfl
    · dsimp only
      have himage : (v.withFallback u).report.imageLsn = v.report.imageLsn := rfl
      rw [himage]
      split_ifs with hle
      · exact ih r' v
      · have hstate : (v.withFallback u).state = v.state := rfl
        rw [hstate]
        rcases apply ⟨v.state, none⟩ ev with a | ⟨st, e⟩
        · rfl
        · dsimp only
          rw [answered_withFallback]
          rcases v.answered r' ev st e.s with ⟨_ | _, v'⟩
          · dsimp only
            rw [ih r' v']
          · rfl

/-- Neither does reading all of them. -/
theorem readSegs_withFallback (segs : List FileItem) : ∀ v : Replay,
    readSegs segs (v.withFallback u) =
      ((readSegs segs v).1, (readSegs segs v).2.map (withFallback u)) := by
  induction segs with
  | nil => exact fun _ => rfl
  | cons seg segs ih =>
    intro v
    rw [readSegs, readSegs]
    rcases seg.entry.content with _ | mapped
    · exact ih v
    dsimp only
    by_cases hshort : mapped.length < kSegmentHdrBytes
    · rw [if_pos hshort, if_pos hshort]
      exact ih v
    rw [if_neg hshort, if_neg hshort]
    have hexp : (v.withFallback u).expectedLsn = v.expectedLsn := rfl
    rw [hexp]
    rcases SegmentReader.open mapped v.expectedLsn with ⟨st, reader⟩
    dsimp only
    by_cases hok : ¬ st.isOk = true
    · rw [if_pos hok, if_pos hok]
      rfl
    rw [if_neg hok, if_neg hok, read, read, readUpTo_withFallback]
    rcases (readUpTo (reader.mapped.length - reader.offset + 1) reader v).2 with
      a | ⟨parar, reader', v'⟩
    · rfl
    · simp only [Except.map]
      split_ifs with hstop hclean
      · rfl
      · rfl
      · have hclose : (v'.withFallback u).close reader' = (v'.close reader').withFallback u := rfl
        rw [hclose, ih]
        rfl

end Replay

/-! ### Recovery -/

/-- **Broken images leave no trace.** Take away from a directory images of the partition that are
broken, while one that loads is there, and start from any state and any arena with room: recovery
opens the same segments, hands on the same records and ends with the same report, tail and state.
Only the note that an image was passed over can be lost, and it is when all broken images go. -/
theorem recover_without_broken {s s' t : PartitionState} {a b : Arena} {dir : List DirEntry}
    {part : ℕ} {keep : DirEntry → Bool} {opened : List OpenedSegment} {report : RecoveryReport}
    {tail : WalTail} (hrun : recover s a dir part = (opened, .ok (report, tail, s')))
    (hkeep : ∀ e ∈ dir, keep e = false → snapPrefix part <+: e.name ∧ Broken e)
    (husable : ∃ snap ∈ snaps dir part, Usable snap.entry)
    (ha : Roomy a (snaps dir part)) (hb : Roomy b (snaps (dir.filter keep) part)) :
    ∃ u, recover t b (dir.filter keep) part =
        (opened, .ok ({ report with usedFallbackImage := u }, tail, s')) ∧
      (u = true → report.usedFallbackImage = true) ∧
      ((∀ snap ∈ snaps dir part, Broken snap.entry → keep snap.entry = false) → u = false) := by
  have hentry : ∀ snap ∈ snaps dir part, snap.entry ∈ dir := fun snap hsnap =>
    (of_mem_listaArquivos (mem_snaps.mp hsnap)).1
  have hsegs : segs (dir.filter keep) part = segs dir part :=
    segs_filter_of_images keep fun e he hdrop => (hkeep e he hdrop).1
  rw [recover, recoverFrom] at hrun
  rcases hload : loadImages 0 (snaps dir part) s a with e | ⟨_ | j, s₁, a₁⟩
  · rw [hload] at hrun
    cases (Prod.mk.inj hrun).2
  · obtain ⟨snap, hsnap, huse⟩ := husable
    exact absurd huse (broken_of_loadImages _ ha hload snap hsnap).not_usable
  rw [hload] at hrun
  obtain ⟨j', b₁, hload', -, -, hle, hall⟩ := loadImages_filter
    (p := fun item => keep item.entry) (snaps dir part) 0 t
    (fun snap hsnap hdrop => (hkeep _ (hentry snap hsnap) hdrop).2) ha
    (snaps_filter keep ▸ hb) hload
  dsimp only at hrun
  have hstart : ∀ k, Replay.start (some k) s₁ =
      (Replay.start (some j) s₁).withFallback (decide (0 < k)) := fun _ => rfl
  obtain ⟨hopened, hres⟩ := Prod.mk.inj hrun
  obtain ⟨v, hv, hval⟩ := map_eq_ok.mp hres
  -- the replay carries the flag that it began with
  have hflag : v.report.usedFallbackImage = decide (0 < j) := by
    have hsame := congrArg Prod.snd
      (Replay.readSegs_withFallback (decide (0 < j)) (segs dir part) (.start (some j) s₁))
    rw [← hstart j, hv] at hsame
    exact congrArg (fun v => v.report.usedFallbackImage) (Except.ok.inj hsame)
  refine ⟨decide (0 < j'), ?_, ?_, ?_⟩
  · rw [recover, recoverFrom, snaps_filter, hload', hsegs]
    dsimp only
    rw [hstart, Replay.readSegs_withFallback, hv, hopened, ← (Prod.mk.inj hval).1,
      ← (Prod.mk.inj (Prod.mk.inj hval).2).1, ← (Prod.mk.inj (Prod.mk.inj hval).2).2]
    rfl
  · intro hu
    have hpos : 0 < j' := of_decide_eq_true hu
    rw [← (Prod.mk.inj hval).1]
    exact hflag.trans (decide_eq_true (by omega))
  · intro h
    have hzero : j' = 0 := hall fun snap hsnap hbroken => h snap hsnap hbroken
    rw [hzero]
    rfl

/-- A file named as an image of partition 0. -/
def imageFile (lsn : Char) (image : Bytes) : DirEntry :=
  ⟨['s', 't', 'a', 't', 'e', '_', 'p', '0', '_', lsn, '.', 'i', 'm', 'g'], some image⟩

/-- An image, and a newer file that is none. -/
def fallbackDir (image : Bytes) : List DirEntry := [imageFile '1' image, imageFile '2' [0]]

/-- The fallback to the image of an empty state, and recovery from that image alone. -/
theorem recover_without_broken_newer : ∃ s₀ arena₀ opened report tail s',
    PartitionState.blank.init ⟨2 ^ 16, 0, false, false⟩ 1 ⟨1, 1, 1, 1, 1, 1, 1, 1, 60⟩ =
      .ok (true, s₀, arena₀) ∧
    recover .blank ⟨2 ^ 16, 0, false, false⟩ (fallbackDir (imageOf s₀)) 0 =
      (opened, .ok (report, tail, s')) ∧ report.usedFallbackImage = true ∧
    recover .blank ⟨2 ^ 16, 0, false, false⟩
        ((fallbackDir (imageOf s₀)).filter fun e => e.content ≠ some [0]) 0 =
      (opened, .ok ({ report with usedFallbackImage := false }, tail, s')) := by
  obtain ⟨s₀, arena₀, hinit, hfits⟩ : ∃ s₀ arena₀,
      PartitionState.blank.init ⟨2 ^ 16, 0, false, false⟩ 1 ⟨1, 1, 1, 1, 1, 1, 1, 1, 60⟩ =
        .ok (true, s₀, arena₀) ∧ ArenaFits ⟨2 ^ 16, 0, false, false⟩ s₀.cap :=
    ⟨_, _, rfl, by decide⟩
  have hs : s₀.Sound := PartitionState.sound_init hinit
  obtain ⟨s', arena', hload, -⟩ := loadStateImage_imageOf hs .blank hfits
  have hroom : HasRoom ⟨2 ^ 16, 0, false, false⟩ (imageOf s₀) := by
    intro h hh
    obtain rfl := Except.ok.inj (hh.symm.trans (loadHeader_imageOf hs))
    exact hfits
  have hgood : Answers (imageOf s₀) true := .of_run hroom hload
  have hshort : ∀ h, loadHeader [0] ≠ .ok h := fun h hh => by cases hh
  -- the newer file is a single byte, too short for a header into any state
  have hbad : ∀ s arena, loadStateImage s arena [0] = .ok (.fail .shortPayload, s, arena) :=
    fun _ _ => rfl
  have hne := imageOf_ne_nil s₀
  generalize himage : imageOf s₀ = image at *
  obtain ⟨x, image, rfl⟩ := List.exists_cons_of_ne_nil hne
  have hsnaps : snaps (fallbackDir (x :: image)) 0 =
      [⟨2, imageFile '2' [0]⟩, ⟨1, imageFile '1' (x :: image)⟩] := rfl
  have hrun : recover .blank ⟨2 ^ 16, 0, false, false⟩ (fallbackDir (x :: image)) 0 =
      ([], .ok (Replay.start (some 1) s').result) := by
    -- the replay takes the older image, as the second of the list
    have himages : loadImages 0 (snaps (fallbackDir (x :: image)) 0) .blank
        ⟨2 ^ 16, 0, false, false⟩ = .ok (some 1, s', arena') := by
      rw [hsnaps]
      simp only [loadImages, imageFile, hbad, hload, bind, Except.bind, Status.isOk_fail]
      rfl
    rw [recover, recoverFrom, himages]
    rfl
  have hnewer : Broken (imageFile '2' [0]) := by
    rintro _ ⟨⟩
    exact .inr (.of_run (fun h hh => absurd hh (hshort h)) (hbad .blank ⟨0, 0, false, false⟩))
  have hlonger : x :: image ≠ [0] := by
    intro heq
    rw [heq, hbad] at hload
    cases hload
  -- without the newer file only the image is left
  have hfilter : (fallbackDir (x :: image)).filter (fun e => e.content ≠ some [0]) =
      [imageFile '1' (x :: image)] := by
    have hkept : (imageFile '1' (x :: image)).content ≠ some [0] := fun h =>
      hlonger (Option.some.inj h)
    simp only [fallbackDir, List.filter_cons, List.filter_nil, decide_eq_true hkept, if_true]
    exact congrArg _ (if_neg (by simp [imageFile]))
  have hnamed : snapPrefix 0 <+: (imageFile '2' [0]).name :=
    List.isPrefixOf_iff_prefix.mp (by decide)
  have hkeep : ∀ e ∈ fallbackDir (x :: image), decide (e.content ≠ some [0]) = false →
      snapPrefix 0 <+: e.name ∧ Broken e := by
    intro e he hdrop
    obtain rfl | he := List.mem_cons.mp he
    · exact absurd (Option.some.inj (not_not.mp (of_decide_eq_false hdrop))) hlonger
    · obtain rfl := List.mem_singleton.mp he
      exact ⟨hnamed, hnewer⟩
  have holder : Usable (imageFile '1' (x :: image)) := ⟨x :: image, rfl, hne, hgood⟩
  have hroomy : Roomy ⟨2 ^ 16, 0, false, false⟩ (snaps (fallbackDir (x :: image)) 0) := by
    rw [hsnaps]
    exact ⟨fun h hh => absurd hh (hshort h), hroom, trivial⟩
  have husable : ∃ snap ∈ snaps (fallbackDir (x :: image)) 0, Usable snap.entry := by
    rw [hsnaps]
    exact ⟨_, List.mem_cons_of_mem _ List.mem_cons_self, holder⟩
  have hroomy' : Roomy ⟨2 ^ 16, 0, false, false⟩
      (snaps ((fallbackDir (x :: image)).filter fun e => e.content ≠ some [0]) 0) := by
    rw [hfilter]
    exact ⟨hroom, trivial⟩
  obtain ⟨u, hrun', -, hall⟩ :=
    recover_without_broken (t := .blank) hrun hkeep husable hroomy hroomy'
  obtain rfl : u = false := by
    refine hall ?_
    rw [hsnaps]
    intro snap hsnap hbroken
    obtain rfl | hsnap := List.mem_cons.mp hsnap
    · simp [imageFile]
    · obtain rfl := List.mem_singleton.mp hsnap
      exact absurd holder hbroken.not_usable
  exact ⟨s₀, arena₀, _, _, _, _, hinit, himage ▸ hrun, rfl, himage ▸ hrun'⟩

end MotorRv
