import TrieCache.Backed.Command
import TrieCache.Cache.Command
import TrieCache.Main
import TrieCache.Proofs.Agreement
import TrieCache.Proofs.ColdMisses
import TrieCache.Proofs.Completion
import TrieCache.Proofs.Consistency
import TrieCache.Proofs.CrossCheck
import TrieCache.Proofs.Detachment
import TrieCache.Proofs.Digits
import TrieCache.Proofs.Disturbance
import TrieCache.Proofs.FailedFetch
import TrieCache.Proofs.Fifo
import TrieCache.Proofs.Flushing
import TrieCache.Proofs.Guard
import TrieCache.Proofs.Independence
import TrieCache.Proofs.Index
import TrieCache.Proofs.Integrity
import TrieCache.Proofs.Kinds
import TrieCache.Proofs.Laps
import TrieCache.Proofs.Ledger
import TrieCache.Proofs.Locking
import TrieCache.Proofs.Loss
import TrieCache.Proofs.Printing
import TrieCache.Proofs.Reachability
import TrieCache.Proofs.Records
import TrieCache.Proofs.Representation
import TrieCache.Proofs.Retirement
import TrieCache.Proofs.Rotation
import TrieCache.Proofs.StoreTraffic
import TrieCache.Proofs.Stranded
import TrieCache.Proofs.Walking
