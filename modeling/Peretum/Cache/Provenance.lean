import Peretum.Cache.Accounting

/-!
# Where cached responses come from

A sidecar on disk was written by a call of `SetResponseToCache`, and so was the body
beside it. With the last call that stored each key at hand, a read is shown to
replay the response of that call and no other, whatever was evicted, expired or
failed in between.
-/

namespace Peretum.Cache

open Go Function

namespace DiskCache

/-- Every file was there before. -/
def Loses (d d' : DiskCache) : Prop :=
  ∀ path file, d'.disk.lookup path = some file → d.disk.lookup path = some file

theorem loses_of_removeEntry {d d' : DiskCache} {key : Key}
    (hdisk : d'.disk = Disk.removeEntry d.disk key) : Loses d d' := by
  intro path file hfile
  rw [hdisk, Disk.removeEntry, Disk.lookup_remove, Disk.lookup_remove] at hfile
  split at hfile
  · cases hfile
  · split at hfile
    · cases hfile
    · exact hfile

theorem ensureSpace_loses (d : DiskCache) (size : Int) : Loses d (d.ensureSpace size).2 := by
  refine ensureSpace_invariant (fun d₁ d₂ hloses hevict => ?_) (fun _ _ h => h) size
  obtain ⟨i, s, key, e, -, -, -, -, hd₂⟩ := evict_spec hevict
  have hevicted : Loses d₁ d₂ := loses_of_removeEntry (by rw [hd₂])
  exact fun path file hfile => hloses path file (hevicted path file hfile)

theorem streamCachedResponse_loses (d : DiskCache) (now : Int) (w : ResponseWriter) (key : Key)
    (ttl : Int) : Loses d (d.streamCachedResponse now w key ttl).cache := by
  rcases d.streamCachedResponse_cases now w key ttl with ⟨-, hcache⟩ | ⟨-, hcache⟩ |
    ⟨info, m, -, -, -, hcache⟩
  · rw [hcache]
    exact fun _ _ h => h
  · rw [hcache, remove_eq]
    exact loses_of_removeEntry rfl
  · rw [hcache]
    exact fun _ _ h => h

/-- Every sidecar and the body beside it are those of the last call that stored the key. -/
def Sourced (d : DiskCache) (last : Key → Option Write) : Prop :=
  ∀ key info, d.disk.lookup (cachePath key metaExt) = some info →
    ∃ w, last key = some w ∧ info.data = w.sidecar ∧
      ∀ file, d.disk.lookup (cachePath key bodyExt) = some file → file.data = w.body

/-- Over an empty directory there is nothing to account for. -/
theorem sourced_new (maxSize maxAge : Int) (last : Key → Option Write) :
    Sourced (new ∅ maxSize maxAge) last := by
  intro key info hinfo
  cases hinfo

/-- Files that are left come from where they came from. -/
theorem Sourced.loses {d d' : DiskCache} {last : Key → Option Write} (hd : d.Sourced last)
    (hloses : Loses d d') : d'.Sourced last := by
  intro key info hinfo
  obtain ⟨w, hlast, hdata, hbody⟩ := hd key info (hloses _ _ hinfo)
  exact ⟨w, hlast, hdata, fun file hfile => hbody file (hloses _ _ hfile)⟩

end DiskCache

namespace Write

/-- A call with this result has stored its response. -/
def stores (w : Write) (result : Except DiskCache.SetError Unit) : Bool :=
  DiskCache.storable w.statusCode w.body && result.isOk

/-- The last stored responses after a call with this result. -/
def lastAfter (w : Write) (result : Except DiskCache.SetError Unit)
    (last : Key → Option Write) : Key → Option Write :=
  if w.stores result then update last w.key (some w) else last

/-- The files of another key are untouched by a change of the two files of this one. -/
theorem sourced_of_other {w : Write} {d d' : DiskCache} {last : Key → Option Write}
    (hd : d.Sourced last) (hself : ∀ info, d'.disk.lookup (cachePath w.key metaExt) = some info →
      info.data = w.sidecar ∧
        ∀ file, d'.disk.lookup (cachePath w.key bodyExt) = some file → file.data = w.body)
    (hother : ∀ k, k ≠ w.key → ∀ ext, ext = metaExt ∨ ext = bodyExt →
      d'.disk.lookup (cachePath k ext) = d.disk.lookup (cachePath k ext)) :
    d'.Sourced (update last w.key (some w)) := by
  intro key info hinfo
  by_cases hkey : key = w.key
  · subst hkey
    obtain ⟨hdata, hbody⟩ := hself info hinfo
    exact ⟨w, update_self .., hdata, hbody⟩
  · rw [hother key hkey metaExt (.inl rfl)] at hinfo
    rw [update_of_ne hkey, hother key hkey bodyExt (.inr rfl)]
    exact hd key info hinfo

/-- A call keeps account of where the files come from. -/
theorem sourced_run (w : Write) {d : DiskCache} {last : Key → Option Write}
    (hd : d.Sourced last) : (w.run d).2.Sourced (w.lastAfter (w.run d).1 last) := by
  have hends := w.run_ends d
  generalize w.run d = outcome at hends ⊢
  have hspaced : ∀ {ok d'}, d.ensureSpace w.size = (ok, d') → DiskCache.Sourced d' last := by
    intro ok d' hspace
    have hloses := d.ensureSpace_loses w.size
    rw [hspace] at hloses
    exact hd.loses hloses
  cases hends with
  | skipped hstorable =>
    simp only [lastAfter, stores, hstorable, Bool.false_and, Bool.false_eq_true, if_false]
    exact hd
  | failed hspace e =>
    simp only [lastAfter, stores, Except.isOk, Except.toBool, Bool.and_false, Bool.false_eq_true,
      if_false]
    exact hspaced hspace
  | @withdrawn d' hspace =>
    simp only [lastAfter, stores, Except.isOk, Except.toBool, Bool.and_false, Bool.false_eq_true,
      if_false]
    refine (hspaced hspace).loses ?_
    intro path file hfile
    simp only [withdraw, writeSidecar, Disk.lookup_remove, Disk.lookup_write] at hfile
    split at hfile
    · cases hfile
    · exact hfile
  | @stored d' hstorable hspace =>
    simp only [lastAfter, stores, hstorable, Except.isOk, Except.toBool, Bool.and_self, if_true]
    have hmeta := cachePath_meta_ne_body w.key w.key
    have hfiles := w.lookup_writeFiles d'
    refine sourced_of_other (hspaced hspace) ?_ ?_
    · intro info hinfo
      replace hinfo := (hfiles _).symm.trans hinfo
      rw [if_neg hmeta, if_pos rfl] at hinfo
      refine ⟨by rw [← Option.some.inj hinfo], ?_⟩
      intro file hfile
      replace hfile := (hfiles _).symm.trans hfile
      rw [if_pos rfl] at hfile
      rw [← Option.some.inj hfile]
    · rintro k hk ext (rfl | rfl)
      · refine (hfiles _).trans ?_
        rw [if_neg (cachePath_meta_ne_body k w.key), if_neg fun heq => hk (cachePath_injective heq)]
      · refine (hfiles _).trans ?_
        rw [if_neg fun heq => hk (cachePath_injective heq),
          if_neg (cachePath_meta_ne_body w.key k).symm]

end Write

/-- The response on the writer is the stored one: its status, its headers added to those that were
there, and its body. -/
def Write.Replays (source : Write) (writer : ResponseWriter) : Prop :=
  ∃ (before : ResponseWriter) (m : Metadata) (now : Int) (info : File),
    readMetadata source.sidecar = .ok m ∧ writer =
      ({ before with header := DiskCache.hitHeader before.header m now info }.writeHeader
        m.statusCode).acceptFrom source.body

theorem DiskCache.Sourced.stream {d : DiskCache} {last : Key → Option Write} (hd : d.Sourced last)
    {now : Int} {w : ResponseWriter} {key : Key} {ttl : Int}
    (hok : (d.streamCachedResponse now w key ttl).result = .ok ()) :
    ∃ source, last key = some source ∧
      source.Replays (d.streamCachedResponse now w key ttl).writer := by
  obtain ⟨info, m, file, hinfo, -, hread, hfile, hwriter⟩ := exists_of_streamCachedResponse_ok hok
  obtain ⟨source, hlast, hdata, hbody⟩ := hd key info hinfo
  refine ⟨source, hlast, w, m, now, info, hdata ▸ hread, ?_⟩
  rw [hwriter, hbody file hfile]

end Peretum.Cache
