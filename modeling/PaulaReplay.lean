import PaulaReplay.Main
import PaulaReplay.Proofs.Alike
import PaulaReplay.Proofs.Rewind
import PaulaReplay.Proofs.Moves
import PaulaReplay.Proofs.Ranges
import PaulaReplay.Proofs.Volume
import PaulaReplay.Proofs.Arithmetic
import PaulaReplay.Proofs.Calm
import PaulaReplay.Proofs.Rehearsal
import PaulaReplay.Proofs.Itinerary
import PaulaReplay.Proofs.Registers
import PaulaReplay.Proofs.Pieces
import PaulaReplay.Proofs.Store
import PaulaReplay.Proofs.Containers
import PaulaReplay.Proofs.Inert
import PaulaReplay.Proofs.Endless
import PaulaReplay.Proofs.Acceptance
import PaulaReplay.Proofs.Silence
import PaulaReplay.Proofs.Countdown
import PaulaReplay.Proofs.Phase
import PaulaReplay.Proofs.Resting
import PaulaReplay.Proofs.Settling
import PaulaReplay.Proofs.Entries
import PaulaReplay.Proofs.Rounds
import PaulaReplay.Proofs.Bearings
import PaulaReplay.Proofs.Seeking
import PaulaReplay.Proofs.Cadence
import PaulaReplay.Proofs.Waits
import PaulaReplay.Proofs.Announcements
import PaulaReplay.Proofs.Reservations
import PaulaReplay.Proofs.Hearing
import PaulaReplay.Proofs.Isolation
import PaulaReplay.Proofs.Locks
import PaulaReplay.Proofs.Readers
import PaulaReplay.Proofs.Repeats
import PaulaReplay.Proofs.Fading
import PaulaReplay.Proofs.Envelopes
import PaulaReplay.Proofs.Sliding
import PaulaReplay.Proofs.Ledger
import PaulaReplay.Proofs.Swings
import PaulaReplay.Proofs.Resampling
import PaulaReplay.Proofs.Beats
import PaulaReplay.Proofs.Songs
import PaulaReplay.Proofs.Endings
import PaulaReplay.Proofs.Walks
import PaulaReplay.Proofs.Words
import PaulaReplay.Proofs.Headings
import PaulaReplay.Proofs.Companions
import PaulaReplay.Proofs.Listings
import PaulaReplay.Proofs.Backlog
import PaulaReplay.Proofs.Guards
