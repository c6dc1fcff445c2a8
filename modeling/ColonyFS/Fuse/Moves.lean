import ColonyFS.Fuse.Sizes
import ColonyFS.Lib.WriteBack

/-!
# What a callback does to the metadata cache, statement by statement

Whatever the state, and whatever the kernel has checked: a callback that returns has made `Moves` on
the metadata cache. It edits or purges paths of `Act.Edits`, it fetches paths, and `dht_task` flushes
one. The metadata cache with the DHT behind it is a write-back cache of records, and at a path that
is not edited every move keeps it.
-/

namespace ColonyFS

open Paths Function
open WriteBack (KeepsAt)

/-- The paths that a callback edits or purges. -/
def Act.Edits : Act → Str → Prop
  | .chmod path _, q | .chown path _ _, q | .utime path _ _, q | .truncate path _, q
  | .write path _ _ _, q => q = path
  | .create path _ _, q | .mkdir path _ _, q | .symlink _ path _, q | .rmdir path, q
  | .unlink path _, q => q = path ∨ q = parentPath path
  | .rename old new, q => q = old ∨ q = new ∨ q = parentPath old ∨ q = parentPath new
  | .getattr .., _ | .read .., _ | .readdir _, _ | .readlink .., _ | .dhtTask _, _ => False

instance : (act : Act) → (q : Str) → Decidable (act.Edits q)
  | .chmod .., _ | .chown .., _ | .utime .., _ | .truncate .., _ | .write .., _ =>
    inferInstanceAs (Decidable (_ = _))
  | .create .., _ | .mkdir .., _ | .symlink .., _ | .rmdir _, _ | .unlink .., _ | .rename .., _ =>
    inferInstanceAs (Decidable (_ ∨ _))
  | .getattr .., _ | .read .., _ | .readdir _, _ | .readlink .., _ | .dhtTask _, _ =>
    inferInstanceAs (Decidable False)

instance (path : Str) : (act : Act) → Decidable (act = .dhtTask path)
  | .dhtTask q => decidable_of_iff (q = path) ⟨congrArg Act.dhtTask, Act.dhtTask.inj⟩
  | .chmod .. | .chown .. | .utime .. | .truncate .. | .write .. | .create .. | .mkdir ..
  | .symlink .. | .rmdir _ | .unlink .. | .rename .. | .getattr .. | .read .. | .readdir _
  | .readlink .. => .isFalse nofun

namespace Fs

variable {σ α : Type} [BinaryArchive Instruction] [BinaryArchive Fattribute.Record]

/-- The attribute of the path has to be written back. -/
def Dirty (c : Fs (Str → Option Str) σ) (path : Str) : Prop :=
  c.metadataSink.impl.IsDirty (slot path)

/-- The record in the DHT. -/
def record? (c : Fs (Str → Option Str) σ) (path : Str) : Option Fattribute.Record :=
  (c.dht (slot path)).bind BinaryArchive.load

/-- A statement on one path. -/
inductive Move (act : Act) (c : Fs (Str → Option Str) σ) :
    Fs (Str → Option Str) σ → Prop where
  | data {c' : Fs (Str → Option Str) σ} :
    c'.metadataSink = c.metadataSink → c'.dht = c.dht → Move act c c'
  | edited {q : Str} {a : Fattribute} {c' : Fs (Str → Option Str) σ} :
    act.Edits q → c'.WF → c'.cached = update c.cached q (some a) →
    (∀ r, c'.Dirty r ↔ r = q ∨ c.Dirty r) → c'.dht = c.dht → Move act c c'
  | purged {q : Str} {c' : Fs (Str → Option Str) σ} :
    act.Edits q → c'.WF → c'.cached = update c.cached q none →
    (∀ r, c'.Dirty r ↔ r ≠ q ∧ c.Dirty r) → c'.dht = update c.dht (slot q) (some []) →
    Move act c c'
  | fetched {q : Str} {a : Fattribute} {c' : Fs (Str → Option Str) σ} :
    c.cached q = none → attr? Dht.table c q = some a → c'.WF →
    c'.cached = update c.cached q (some a) → (∀ r, c'.Dirty r ↔ c.Dirty r) → c'.dht = c.dht →
    Move act c c'
  /-- The mark is looked for under the path itself. -/
  | flushed {q : Str} {a : Fattribute} {c' : Fs (Str → Option Str) σ} :
    act = .dhtTask q → c.Dirty q → c.cached q = some a → c'.WF → c'.cached = c.cached →
    (∀ r, c'.Dirty r ↔ q ≠ slot r ∧ c.Dirty r) →
    c'.dht = update c.dht (slot q) (some (BinaryArchive.save a.serialize)) → Move act c c'

/-- Any number of statements. -/
inductive Moves (act : Act) (c : Fs (Str → Option Str) σ) :
    Fs (Str → Option Str) σ → Prop where
  | refl : Moves act c c
  | tail {c₁ c' : Fs (Str → Option Str) σ} : Moves act c c₁ → Move act c₁ c' → Moves act c c'

variable {P : Policy ChunkData σ} {process : Process} {c c' c₁ c₂ : Fs (Str → Option Str) σ}
  {path q f : Str} {p : Ptr} {a b : Fattribute} {act : Act}
  {r : Fattribute.Record}

theorem Moves.single (h : Move act c c') : Moves act c c' := .tail .refl h

theorem Moves.trans (h : Moves act c c₁) (h' : Moves act c₁ c') : Moves act c c' := by
  induction h' with
  | refl => exact h
  | tail _ hm ih => exact .tail ih hm

/-- What every statement keeps. -/
theorem Moves.invariant {I : Fs (Str → Option Str) σ → Prop} (h : Moves act c c') (init : I c)
    (keep : ∀ c c', I c → Move act c c' → I c') : I c' := by
  induction h with
  | refl => exact init
  | tail _ hm ih => exact keep _ _ ih hm

theorem Move.wf (h : Move act c c') (H : c.WF) : c'.WF := by
  cases h with
  | data hm _ => rw [WF, hm]; exact H
  | edited _ wf | purged _ wf => exact wf
  | fetched _ _ wf | flushed _ _ _ wf => exact wf

theorem Moves.wf (h : Moves act c c') (H : c.WF) : c'.WF := h.invariant H fun _ _ H hm => hm.wf H

/-! ## The statements -/

/-- `p` is the address of the attribute of a path, which is dirty. -/
structure Held (c : Fs (Str → Option Str) σ) (path : Str) (p : Ptr) : Prop where
  wf : c.WF
  pair : c.Pair path p
  dirty : c.Dirty path

omit [BinaryArchive Fattribute.Record] in
theorem Held.attr (h : Held c path p) : ∃ a, c.cached path = some a := by
  obtain ⟨v, _, hget, _⟩ := BasicCache.WF.get?_of_read h.wf h.pair
  exact ⟨v.mapped, by rw [cached, hget, Option.map_some]⟩

theorem metadataAt_moves (H : c.WF) (hE : act.Edits path) (h : metadataAt path c = .ok p c') :
    Moves act c c' ∧ Held c' path p := by
  obtain ⟨q, c₁, h₁, hp, _, H₁⟩ := metadataAt_spec H path
  cases h₁.symm.trans h
  have hs : Cache.Subscripted c.metadataSink path _ _ := Cache.subscript_spec H
  have heq : c'.metadataSink = (c.metadataSink.subscript path).2 := by
    have h : metadataAt path c = .ok (c.metadataSink.subscript path).1
      { c with metadataSink := (c.metadataSink.subscript path).2 } := rfl
    cases h.symm.trans h₁
    rfl
  have hdirty : ∀ r, c'.Dirty r ↔ r = path ∨ c.Dirty r := by
    intro r
    rw [Dirty, heq, hs.isDirty]
    exact or_congr_left (eq_comm.trans slot_inj)
  exact ⟨.single (.edited hE H₁.wf H₁.cached hdirty H₁.dht_eq),
    H₁.wf, hp, (hdirty path).mpr (.inl rfl)⟩

theorem modifyMapped_moves {f : Fattribute → Fattribute} (hp : Held c path p) (hE : act.Edits path)
    (h : modifyMapped p f c = .ok () c') : Moves act c c' ∧ Held c' path p := by
  obtain ⟨a, ha⟩ := hp.attr
  obtain ⟨c₁, h₁, H₁⟩ := modifyMapped_spec hp.wf hp.pair ha f
  cases h₁.symm.trans h
  have hdirty : ∀ r, c'.Dirty r ↔ c.Dirty r := by
    intro r
    obtain ⟨v, hv, _⟩ := hp.pair.heap ha
    have h : modifyMapped p f c = .ok () { c with
        metadataSink := { c.metadataSink with
          impl := c.metadataSink.impl.assign p { v with mapped := f v.mapped } } } :=
      Exec.bind_of_ok (onMetadata_ok (Cache.deref_ok hv))
    cases h.symm.trans h₁
    rfl
  refine ⟨.single (.edited hE H₁.wf H₁.cached (fun r => ?_) H₁.dht_eq), H₁.wf, H₁.pair hp.pair,
    (hdirty path).mpr hp.dirty⟩
  rw [hdirty]
  refine ⟨.inr, ?_⟩
  rintro (rfl | hr)
  · exact hp.dirty
  · exact hr

theorem edit_moves {f : Fattribute → Fattribute} (H : c.WF) (hE : act.Edits path)
    (h : edit path f c = .ok () c') : Moves act c c' := by
  obtain ⟨p, c₁, h₁, h⟩ := Exec.bind_eq_ok.mp h
  obtain ⟨hm, hp⟩ := metadataAt_moves H hE h₁
  exact hm.trans (modifyMapped_moves hp hE h).1

theorem purgeMetadata_moves (H : c.WF) (hE : act.Edits path)
    (h : purgeMetadata Dht.table path c = .ok () c') : Moves act c c' := by
  obtain ⟨c₁, h₁, wf, hc, hd⟩ := purgeMetadata_table H path
  cases h₁.symm.trans h
  refine .single (.purged hE wf hc (fun r => ?_) hd)
  have h : purgeMetadata Dht.table path c = .ok () { c with
      metadataSink := { c.metadataSink with impl := c.metadataSink.impl.erase (slot path) }
      dht := update c.dht (slot path) (some []) } := rfl
  cases h.symm.trans h₁
  refine BasicCache.isDirty_erase.trans (and_congr_left fun _ => ?_)
  rw [Ne, slot_inj]
  exact not_congr eq_comm

theorem metadataOf_moves (H : c.WF) (h : metadataOf Dht.table path c = .ok p c') :
    Moves act c c' ∧ c'.WF := by
  obtain ⟨rfl, _⟩ | ⟨hc, v, hv, _, _, rfl⟩ := metadataOf_returned H readOnly_table h
  · exact ⟨.refl, H⟩
  · have hk : v.getKey = slot path := MetadataOnFlush.policy_keepsKey _ _ _ _ _ hv
    have wf := fetched_wf (s := c.dht) H hc hk
    exact ⟨.single (.fetched hc (attr?_of_preRead hc hv) wf (fetched_cached H) (fun _ => .rfl) rfl),
      wf⟩

theorem onData_moves {x : DataM σ α} {r : α} (h : onData x c = .ok r c') : Moves act c c' := by
  obtain ⟨d, e, rfl⟩ := onData_cases h
  exact .single (.data rfl rfl)

/-- The record of a marked path goes to the DHT. -/
theorem flush_dirty (H : c.WF) (hd : c.Dirty path)
    (h : onMetadata (Cache.invalidate (MetadataOnFlush.policy Dht.table) path) c = .ok () c') :
    ∃ a, c.cached path = some a ∧ c'.WF ∧ c'.cached = c.cached ∧
      (∀ r, c'.Dirty r ↔ path ≠ slot r ∧ c.Dirty r) ∧
      c'.dht = update c.dht (slot path) (some (BinaryArchive.save a.serialize)) := by
  obtain ⟨s, hs, rfl⟩ := Exec.zoom_eq_ok h
  obtain ⟨p, hp⟩ := BasicCache.WF.read_of_isDirty H hd
  obtain ⟨v, hv, hget, hk⟩ := BasicCache.WF.get?_of_read H hp
  have hf : (MetadataOnFlush.policy Dht.table).onFlush v c.dht =
      .ok () (update c.dht v.getKey (some v.getValue)) := rfl
  cases (Cache.invalidate_dirty hd hp hv hf).symm.trans hs
  have hk : v.getKey = slot path := hk
  refine ⟨v.mapped, by rw [cached, hget, Option.map_some], BasicCache.WF.clearDirty H, rfl,
    fun r => ?_, ?_⟩
  · exact BasicCache.isDirty_clearDirty
  · exact congrArg (fun k => update c.dht k (some v.getValue)) hk

theorem flush_moves (H : c.WF) (hact : act = .dhtTask path)
    (h : onMetadata (Cache.invalidate (MetadataOnFlush.policy Dht.table) path) c = .ok () c') :
    Moves act c c' := by
  by_cases hd : c.Dirty path
  · obtain ⟨a, ha, wf, hc, hd', hdht⟩ := flush_dirty H hd h
    exact .single (.flushed hact hd ha wf hc hd' hdht)
  · obtain ⟨s, hs, rfl⟩ := Exec.zoom_eq_ok h
    cases (Cache.invalidate_clean hd).symm.trans hs
    exact .refl

/-! ## The callbacks -/

theorem chmod_moves {mode : UInt32} {r : Int} (H : c.WF) (hE : act.Edits path)
    (h : chmod process path mode c = .ok r c') : Moves act c c' := by
  obtain ⟨p, c₁, h₁, h⟩ := Exec.bind_eq_ok.mp h
  obtain ⟨hm, hp⟩ := metadataAt_moves H hE h₁
  obtain ⟨a, c₂, h₂, h⟩ := Exec.bind_eq_ok.mp h
  cases getMapped_state h₂
  split at h
  · obtain ⟨_, c₃, h₃, h⟩ := Exec.bind_eq_ok.mp h
    cases h
    exact hm.trans (modifyMapped_moves hp hE h₃).1
  · cases h
    exact hm

theorem edit_return_moves {f : Fattribute → Fattribute} {r s : Int} (H : c.WF) (hE : act.Edits path)
    (h : (do edit path f; return s : FuseM (Str → Option Str) σ Int) c = .ok r c') :
    Moves act c c' := by
  obtain ⟨_, c₁, h₁, h⟩ := Exec.bind_eq_ok.mp h
  cases h
  exact edit_moves H hE h₁

theorem create_moves {mode : UInt32} {now : Timespec} {r : Int} (H : c.WF) (hE : act.Edits path)
    (hE' : act.Edits (parentPath path)) (h : create process path mode now c = .ok r c') :
    Moves act c c' := by
  rw [create] at h
  split at h
  · cases h
    exact .refl
  · obtain ⟨_, c₁, h₁, h⟩ := Exec.bind_eq_ok.mp h
    obtain ⟨_, c₂, h₂, h⟩ := Exec.bind_eq_ok.mp h
    obtain ⟨_, c₃, h₃, h⟩ := Exec.bind_eq_ok.mp h
    cases h
    have hm := edit_moves H hE h₁
    exact (hm.trans (edit_moves (hm.wf H) hE' h₂)).trans (onData_moves h₃)

theorem edit_edit_moves {f g : Fattribute → Fattribute} {r s : Int} (H : c.WF) (hE : act.Edits path)
    (hE' : act.Edits q) (h : (do edit path f; edit q g; return s : FuseM (Str → Option Str) σ Int) c =
      .ok r c') : Moves act c c' := by
  obtain ⟨_, c₁, h₁, h⟩ := Exec.bind_eq_ok.mp h
  have hm := edit_moves H hE h₁
  exact hm.trans (edit_return_moves (hm.wf H) hE' h)

theorem mkdir_moves {mode : UInt32} {now : Timespec} {r : Int} (H : c.WF) (hE : act.Edits path)
    (hE' : act.Edits (parentPath path)) (h : mkdir process path mode now c = .ok r c') :
    Moves act c c' := by
  rw [mkdir] at h
  split at h
  · cases h
    exact .refl
  · exact edit_edit_moves H hE hE' h

theorem unlink_moves {freed r : Int} (H : c.WF) (hE : act.Edits path) (hE' : act.Edits (parentPath path))
    (h : unlink Dht.table process path freed c = .ok r c') : Moves act c c' := by
  rw [unlink] at h
  split at h
  · cases h
    exact .refl
  obtain ⟨p, c₁, h₁, h⟩ := Exec.bind_eq_ok.mp h
  obtain ⟨hm, hp⟩ := metadataAt_moves H hE h₁
  obtain ⟨a, c₂, h₂, h⟩ := Exec.bind_eq_ok.mp h
  cases getMapped_state h₂
  split at h
  · cases h
    exact hm
  · obtain ⟨_, c₃, h₃, h⟩ := Exec.bind_eq_ok.mp h
    obtain ⟨_, c₄, h₄, h⟩ := Exec.bind_eq_ok.mp h
    cases h
    have hm := hm.trans (edit_moves hp.wf hE' h₃)
    exact hm.trans (purgeMetadata_moves (hm.wf H) hE h₄)

theorem rmdir_moves {r : Int} (H : c.WF) (hE : act.Edits path) (hE' : act.Edits (parentPath path))
    (h : rmdir Dht.table path c = .ok r c') : Moves act c c' := by
  obtain ⟨_, c₁, h₁, h⟩ := Exec.bind_eq_ok.mp h
  have hm := purgeMetadata_moves H hE h₁
  obtain ⟨c₂, h₂, _⟩ := edit_spec (hm.wf H) (parentPath path)
    fun a => { a with list := a.list.filter (· ≠ filename path) }
  have hrun : (do edit (parentPath path) fun a =>
      { a with list := a.list.filter (· ≠ filename path) }
                  return (0 : Int)) c₁ = .ok 0 c₂ := Exec.bind_of_ok h₂
  cases (catchLookup_ok hrun).symm.trans h
  exact hm.trans (edit_moves (hm.wf H) hE' h₂)

theorem truncate_moves {length r : Int} (H : c.WF) (hE : act.Edits path)
    (h : truncate P path length c = .ok r c') : Moves act c c' := by
  rw [truncate, catchLookup] at h
  by_cases hlen : length < 0
  · rw [if_pos hlen] at h
    cases h
    exact .refl
  obtain ⟨p, c₁, h₁, _⟩ := metadataAt_spec H path
  obtain ⟨hm, hp⟩ := metadataAt_moves H hE h₁
  obtain ⟨a, ha⟩ := hp.attr
  rw [if_neg hlen, Exec.bind_of_ok h₁, Exec.bind_of_ok (getMapped_ok hp.pair ha)] at h
  cases hx : DataSink.truncate P path (toSizeT length) (toSizeT a.stbuf.size)
      (c₁.dataSink, c₁.chunkservers) with
  | ok _ s =>
    let c₂ : Fs (Str → Option Str) σ := { c₁ with dataSink := s.1, chunkservers := s.2 }
    have hp₂ : Held c₂ path p := ⟨hp.wf, hp.pair, hp.dirty⟩
    have hm₂ : Moves act c c₂ := hm.trans (.single (.data rfl rfl))
    obtain ⟨c₃, h₃, _⟩ := modifyMapped_spec (c := c₂) hp.wf hp.pair ha
      fun a => { a with stbuf := { a.stbuf with size := length } }
    rw [Exec.bind_of_ok (onData_ok hx), Exec.bind_of_ok h₃] at h
    cases h
    exact hm₂.trans (modifyMapped_moves hp₂ hE h₃).1
  | error e s =>
    rw [Exec.bind_of_error (onData_error hx)] at h
    split at h
    · next he =>
      cases he
      cases h
      exact hm.trans (.single (.data rfl rfl))
    · cases h

theorem rename_moves {old new : Str} {r : Int} (H : c.WF) (h₁ : act.Edits old) (h₂ : act.Edits new)
    (h₃ : act.Edits (parentPath old)) (h₄ : act.Edits (parentPath new))
    (h : rename Dht.table old new c = .ok r c') : Moves act c c' := by
  obtain ⟨p, c₁, hat, hr₁⟩ := Exec.bind_eq_ok.mp h
  obtain ⟨hm₁, hp⟩ := metadataAt_moves H h₃ hat
  obtain ⟨b, _, hget, hr₂⟩ := Exec.bind_eq_ok.mp hr₁
  cases getMapped_state hget
  obtain ⟨_, _, hreq, hr₃⟩ := Exec.bind_eq_ok.mp hr₂
  obtain ⟨_, rfl⟩ := Exec.require_eq_ok hreq
  obtain ⟨_, c₂, hmod, hr₄⟩ := Exec.bind_eq_ok.mp hr₃
  have hm₂ := hm₁.trans (modifyMapped_moves hp h₃ hmod).1
  obtain ⟨_, c₃, hedit, hr₅⟩ := Exec.bind_eq_ok.mp hr₄
  have hm₃ := hm₂.trans (edit_moves (hm₂.wf H) h₄ hedit)
  obtain ⟨q, c₄, hof, hr₆⟩ := Exec.bind_eq_ok.mp hr₅
  have hmof : Moves act c₃ c₄ := (metadataOf_moves (hm₃.wf H) hof).1
  have hm₄ := hm₃.trans hmof
  obtain ⟨n, c₅, hat', hr₇⟩ := Exec.bind_eq_ok.mp hr₆
  obtain ⟨hm, hn⟩ := metadataAt_moves (hm₄.wf H) h₂ hat'
  have hm₅ := hm₄.trans hm
  obtain ⟨a, _, hget', hr₈⟩ := Exec.bind_eq_ok.mp hr₇
  cases getMapped_state hget'
  obtain ⟨_, c₆, hmod', hr₉⟩ := Exec.bind_eq_ok.mp hr₈
  have hm₆ := hm₅.trans (modifyMapped_moves hn h₂ hmod').1
  obtain ⟨_, c₇, hpurge, hr₁₀⟩ := Exec.bind_eq_ok.mp hr₉
  have hm₇ := hm₆.trans (purgeMetadata_moves (hm₆.wf H) h₁ hpurge)
  obtain ⟨_, _, hget'', hr₁₁⟩ := Exec.bind_eq_ok.mp hr₁₀
  cases getMapped_state hget''
  obtain ⟨_, c₈, hdata, hr₁₂⟩ := Exec.bind_eq_ok.mp hr₁₁
  cases hr₁₂
  exact hm₇.trans (onData_moves hdata)

/-- Whatever a callback does to the metadata cache, it does it move by move. -/
theorem step_moves (H : c.WF) (h : step Dht.table P process c act = some c') :
    Moves act c c' := by
  cases act with
  | chmod path mode =>
    obtain ⟨r, hr⟩ := after_eq_some.mp h
    exact chmod_moves H rfl hr
  | chown path uid gid =>
    obtain ⟨r, hr⟩ := after_eq_some.mp h
    exact edit_return_moves H rfl hr
  | utime path actime modtime =>
    obtain ⟨r, hr⟩ := after_eq_some.mp h
    exact edit_return_moves H rfl hr
  | create path mode now =>
    obtain ⟨r, hr⟩ := after_eq_some.mp h
    exact create_moves H (.inl rfl) (.inr rfl) hr
  | mkdir path mode now =>
    obtain ⟨r, hr⟩ := after_eq_some.mp h
    exact mkdir_moves H (.inl rfl) (.inr rfl) hr
  | symlink target path now =>
    obtain ⟨r, hr⟩ := after_eq_some.mp h
    exact edit_edit_moves H (.inl rfl) (.inr rfl) hr
  | unlink path freed =>
    obtain ⟨r, hr⟩ := after_eq_some.mp h
    exact unlink_moves H (.inl rfl) (.inr rfl) hr
  | rmdir path =>
    obtain ⟨r, hr⟩ := after_eq_some.mp h
    exact rmdir_moves H (.inl rfl) (.inr rfl) hr
  | rename old new =>
    obtain ⟨r, hr⟩ := after_eq_some.mp h
    exact rename_moves H (.inl rfl) (.inr (.inl rfl)) (.inr (.inr (.inl rfl)))
      (.inr (.inr (.inr rfl))) hr
  | truncate path length =>
    obtain ⟨r, hr⟩ := after_eq_some.mp h
    exact truncate_moves H rfl hr
  | write path buffer size offset =>
    obtain ⟨r, hr⟩ := after_eq_some.mp h
    obtain ⟨_, c₁, h₁, hr⟩ := Exec.bind_eq_ok.mp hr
    have hm : Moves (.write path buffer size offset) c c₁ := onData_moves h₁
    exact hm.trans (edit_return_moves (hm.wf H) rfl hr)
  | getattr path stat =>
    obtain ⟨r, hr⟩ := after_eq_some.mp h
    obtain rfl | ⟨_, p, hm⟩ := getattr_returned H readOnly_table hr
    · exact .refl
    · exact (metadataOf_moves H hm).1
  | readdir path =>
    obtain ⟨r, hr⟩ := after_eq_some.mp h
    obtain rfl | ⟨p, hm⟩ := readdir_returned H readOnly_table hr
    · exact .refl
    · exact (metadataOf_moves H hm).1
  | readlink path buffer size =>
    obtain ⟨r, hr⟩ := after_eq_some.mp h
    obtain ⟨p, hm⟩ := readlink_returned hr
    exact (metadataOf_moves H hm).1
  | read path buffer size offset =>
    obtain ⟨r, hr⟩ := after_eq_some.mp h
    obtain ⟨p, c₁, h₁, hr⟩ := Exec.bind_eq_ok.mp hr
    have hm : Moves (.read path buffer size offset) c c₁ := (metadataOf_moves H h₁).1
    obtain ⟨a, c₂, h₂, hr⟩ := Exec.bind_eq_ok.mp hr
    cases getMapped_state h₂
    split at hr
    · cases hr
      exact hm
    · obtain ⟨_, c₃, h₃, hr⟩ := Exec.bind_eq_ok.mp hr
      cases hr
      exact hm.trans (onData_moves h₃)
  | dhtTask path =>
    obtain ⟨_, hr⟩ := after_eq_some.mp h
    obtain ⟨_, c₁, h₁, hr⟩ := Exec.bind_eq_ok.mp hr
    obtain ⟨_, c₂, h₂, h₃⟩ := Exec.bind_eq_ok.mp hr
    exact (flush_moves H rfl h₁).trans ((onData_moves h₂).trans (onData_moves h₃))

/-! ## The metadata cache as a write-back cache -/

/-- The cached attributes in front of the DHT, as far as they are archived. -/
def records (c : Fs (Str → Option Str) σ) : WriteBack Str Fattribute.Record where
  cached path := (c.cached path).map Fattribute.serialize
  Dirty := c.Dirty
  stored := c.record?

theorem records_marked (H : c.WF) : c.records.Marked := by
  intro path hd
  obtain ⟨p, hp⟩ := BasicCache.WF.read_of_isDirty H hd
  obtain ⟨v, _, hget, _⟩ := BasicCache.WF.get?_of_read H hp
  have hc : c.cached path = some v.mapped := by rw [cached, hget, Option.map_some]
  exact ⟨v.mapped.serialize, by simp only [records, hc, Option.map_some]⟩

/-- A look-up that goes to the DHT yields what is stored. -/
theorem record?_of_attr? (hc : c.cached path = none) (ha : attr? Dht.table c path = some a) :
    c.record? path = some a.serialize := by
  rw [attr?_table, hc, Option.none_or] at ha
  obtain ⟨raw, hraw, ha⟩ := Option.bind_eq_some_iff.mp ha
  obtain ⟨v, hv, rfl⟩ := Option.map_eq_some_iff.mp ha
  obtain ⟨r, hr, rfl⟩ := Option.map_eq_some_iff.mp hv
  rw [record?, hraw, Option.bind_some, hr]
  rfl

theorem attr?_of_record? (hc : c.cached path = none) (hr : c.record? path = some r) :
    attr? Dht.table c path = some (Fattribute.new.deserialize r) := by
  obtain ⟨raw, hraw, hload⟩ := Option.bind_eq_some_iff.mp hr
  rw [attr?_table, hc, Option.none_or, hraw, Option.bind_some, AttributeValue.setValue, hload]
  rfl

theorem record?_update (h : c'.dht = update c.dht (slot q) (some (BinaryArchive.save r))) :
    c'.record? q = some r := by
  rw [record?, h, update_self, Option.bind_some, BinaryArchive.load_save]

theorem record?_update_of_ne {o : Option Str} (h : c'.dht = update c.dht (slot q) o)
    (hne : f ≠ q) : c'.record? f = c.record? f := by
  rw [record?, h, update_of_ne (mt slot_inj.mp hne), record?]

theorem records_of_ne {o : Option Fattribute} (hne : f ≠ q)
    (hc : c'.cached = update c.cached q o) (hd : c'.Dirty f ↔ c.Dirty f)
    (hs : c'.record? f = c.record? f) : KeepsAt c.records c'.records f := by
  refine .of_eq ?_ hd hs
  simp only [records, hc, update_of_ne hne]

/-- A move keeps the record of a path, or edits it. The mark of `f` is lost in a flush of the key that
`f` is archived under. -/
theorem Move.keepsAt_or (h : Move act c c') (H : c.WF) (hF : act ≠ .dhtTask (slot f)) :
    KeepsAt c.records c'.records f ∨ act.Edits f ∧ (c'.Dirty f ∨ c'.cached f = none) := by
  cases h with
  | data hm hd =>
    refine .inl (.of_eq ?_ ?_ ?_)
    · simp only [records, cached, hm]
    · simp only [records, Dirty, hm]
    · simp only [records, record?, hd]
  | @edited q _ _ hq _ hc hd hs =>
    obtain rfl | hne := eq_or_ne f q
    · exact .inr ⟨hq, .inl ((hd f).mpr (.inl rfl))⟩
    refine .inl (records_of_ne hne hc ((hd f).trans (or_iff_right hne)) ?_)
    rw [record?, hs, record?]
  | @purged q _ hq _ hc hd hs =>
    obtain rfl | hne := eq_or_ne f q
    · exact .inr ⟨hq, .inr (by rw [hc, update_self])⟩
    exact .inl (records_of_ne hne hc ((hd f).trans (and_iff_right hne))
      (record?_update_of_ne hs hne))
  | @fetched q a _ hnone ha _ hc hd hs =>
    have hs : c'.record? f = c.record? f := by rw [record?, hs, record?]
    obtain rfl | hne := eq_or_ne f q
    · have hclean : ¬c.Dirty f := by
        intro hd
        obtain ⟨r, hr⟩ := records_marked H f hd
        simp only [records, hnone] at hr
        cases hr
      refine .inl (.fetched hclean (mt (hd f).mp hclean) ?_ hs)
      simp only [records, hc, update_self, record?_of_attr? hnone ha, Option.map_some]
    · exact .inl (records_of_ne hne hc (hd f) hs)
  | @flushed q a _ hact hq ha _ hc hd hs =>
    have hslot : q ≠ slot f := by
      rintro rfl
      exact hF hact
    have hd' : c'.Dirty f ↔ c.Dirty f := (hd f).trans (and_iff_right hslot)
    have hc' : c'.records.cached f = c.records.cached f := by simp only [records, hc]
    obtain rfl | hne := eq_or_ne f q
    · refine .inl (.flushed hq (fun v hv => hc' ▸ hv) (fun _ => hc') ?_)
      simp only [records, record?_update hs, ha, Option.map_some]
    · exact .inl (.of_eq hc' hd' (record?_update_of_ne hs hne))

theorem Moves.keepsAt (h : Moves act c c') (H : c.WF) (hE : ¬act.Edits f)
    (hF : act ≠ .dhtTask (slot f)) : KeepsAt c.records c'.records f := by
  induction h with
  | refl => exact .refl _ _
  | tail h hm ih => exact ih.trans ((hm.keepsAt_or (h.wf H) hF).resolve_right fun h => hE h.1)

/-- No attribute is dropped that is not purged. -/
theorem Move.cached (h : Move act c c') (hE : ¬act.Edits f) (ha : c.cached f = some a) :
    c'.cached f = some a := by
  cases h with
  | data hm _ => rw [Fs.cached, hm]; exact ha
  | @edited q _ _ hq _ hc | @purged q _ hq _ hc =>
    have hne : f ≠ q := fun h => hE (h ▸ hq)
    rw [hc, update_of_ne hne, ha]
  | @fetched q _ _ hnone _ _ hc =>
    have hne : f ≠ q := by
      rintro rfl
      cases hnone.symm.trans ha
    rw [hc, update_of_ne hne, ha]
  | flushed _ _ _ _ hc => rw [hc, ha]

theorem Moves.cached (h : Moves act c c') (hE : ¬act.Edits f) (ha : c.cached f = some a) :
    c'.cached f = some a :=
  h.invariant ha fun _ _ ha hm => hm.cached hE ha

/-- The record in the DHT is one that was flushed. -/
theorem Move.record? (h : Move act c c') (hF : act ≠ .dhtTask f) {r : Fattribute.Record}
    (hr : c'.record? f = some r) : c.record? f = some r := by
  cases h with
  | data _ hd | edited _ _ _ _ hd | fetched _ _ _ _ _ hd => rw [← hr, Fs.record?, Fs.record?, hd]
  | @purged q _ _ _ _ _ hd =>
    obtain rfl | hne := eq_or_ne f q
    · rw [Fs.record?, hd, update_self, Option.bind_some, BinaryArchive.load_nil] at hr
      cases hr
    · rw [← hr, record?_update_of_ne hd hne]
  | @flushed q _ _ hact _ _ _ _ _ hd =>
    have hne : f ≠ q := by
      rintro rfl
      exact hF hact
    rw [← hr, record?_update_of_ne hd hne]

theorem Moves.record? (h : Moves act c c') (hF : act ≠ .dhtTask f)
    (hr : c'.record? f = some r) : c.record? f = some r := by
  induction h with
  | refl => exact hr
  | tail _ hm ih => exact ih (hm.record? hF hr)

/-- After a flush of a marked path its record is in the DHT. -/
theorem dhtTask_record? (H : c.WF) (hd : c.Dirty f) (ha : c.cached f = some a)
    (h : step Dht.table P process c (.dhtTask f) = some c') :
    c'.record? f = some a.serialize := by
  obtain ⟨_, hr⟩ := after_eq_some.mp h
  obtain ⟨_, c₁, h₁, hr⟩ := Exec.bind_eq_ok.mp hr
  obtain ⟨_, c₂, h₂, h₃⟩ := Exec.bind_eq_ok.mp hr
  obtain ⟨b, hb, _, _, _, hdht⟩ := flush_dirty H hd h₁
  cases ha.symm.trans hb
  obtain ⟨d, e, rfl⟩ := onData_cases h₂
  obtain ⟨d, e, rfl⟩ := onData_cases h₃
  exact record?_update hdht

/-- What is cached is in the DHT as well, or has to be written back. -/
def Recorded (f : Str) (c : Fs (Str → Option Str) σ) : Prop :=
  ∀ r, c.records.cached f = some r → c.Dirty f ∨ c.record? f = some r

theorem Recorded.keepsAt (H : Recorded f c) (hk : KeepsAt c.records c'.records f) :
    Recorded f c' := by
  intro r hr
  by_cases hd' : c'.Dirty f
  · exact .inl hd'
  refine .inr ?_
  obtain hc | ⟨hd, hs⟩ := hk.cached r hr
  · by_cases hd : c.Dirty f
    · exact (hk.written hd hd').trans hc
    · exact (hk.clean hd).trans ((H r hc).resolve_left hd)
  · exact (hk.clean hd).trans hs

theorem Recorded.move (H : Recorded f c) (h : Move act c c') (wf : c.WF)
    (hF : act ≠ .dhtTask (slot f)) : Recorded f c' := by
  obtain hk | ⟨_, hd | hnone⟩ := h.keepsAt_or wf hF
  · exact H.keepsAt hk
  · exact fun _ _ => .inl hd
  · intro r hr
    simp only [records, hnone] at hr
    cases hr

theorem Moves.recorded (h : Moves act c c') (H : c.WF) (hF : act ≠ .dhtTask (slot f))
    (hs : Recorded f c) : Recorded f c' := by
  induction h with
  | refl => exact hs
  | tail h hm ih => exact ih.move hm (h.wf H) hF

/-- The constructor edits the root as a `chmod` of it does. -/
theorem start_moves (now : Timespec) (d : Str → Option Str) (e : σ) :
    Moves (.chmod ['/'] 0) (empty d e) (start now d e) := by
  obtain ⟨c', h, _⟩ := edit_spec (c := empty d e) wf_empty ['/'] fun a => { a with
    stbuf := { a.stbuf with mode := S_IFDIR ||| 0o777, nlink := 1, mtim := now } }
  have hs : start now d e = c' := by
    have h : colonyfsFusexx now (empty d e) = .ok () c' := h
    rw [start, after, h]
    rfl
  rw [hs]
  exact edit_moves wf_empty rfl h

/-- Only the root has to be written back at first. -/
theorem start_clean {now : Timespec} {d : Str → Option Str} {e : σ} (hf : f ≠ ['/']) :
    ¬(start now d e).Dirty f := by
  intro hd
  have hk := (start_moves now d e).keepsAt (f := f) wf_empty hf nofun
  obtain ⟨p, hp⟩ := BasicCache.WF.read_of_isDirty wf_empty (hk.dirty hd).1
  cases hp

end Fs

end ColonyFS
