import ChordScript.Schedule.Journal

namespace ChordScript

open Journal

def Event.listed (e : Event Float) : Entry :=
  ⟨.info, .listing,
    .ofList (Decimal.alignRight 8 (Journal.seconds e.start)) ++ "s " ++ e.voice.title ++ " " ++
      e.kind.title ++ " [" ++ " ".intercalate (e.pitches.map (·.text)) ++ "] for " ++
      secondsText e.duration⟩

def Schedule.listing (s : Schedule Float) : List Entry :=
  s.events.map (·.listed) ++ [⟨.info, .listing, "Done after " ++ secondsText s.finalCursor⟩]

end ChordScript
