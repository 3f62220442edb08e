import MongoSgx.Interaction.Linearization
import MongoSgx.Interaction.Session
import MongoSgx.Sequential.Directory
import MongoSgx.Sequential.Membership
import MongoSgx.Sequential.Deletion
import MongoSgx.Sequential.Keys
import MongoSgx.Signature.Agreement
import MongoSgx.Signature.Binding
import MongoSgx.Adversary.Untrusted
import MongoSgx.Concurrent.Calls
import MongoSgx.Concurrent.Sweep
import MongoSgx.Concurrent.Signed
import MongoSgx.Concurrent.Tracking
import MongoSgx.Concurrent.LostDeletion
import MongoSgx.Concurrent.Orphans
import MongoSgx.Concurrent.Linearizable
import MongoSgx.Interaction.Transcript
import MongoSgx.Transcript.Calls
import MongoSgx.Sequential.Addition
import MongoSgx.Adversary.Signing
import MongoSgx.Signature.Separation
import MongoSgx.Transcript.Failures
import MongoSgx.Interaction.History
import MongoSgx.Transcript.Effects
import MongoSgx.Concurrent.Application
import MongoSgx.Transcript.Names
import MongoSgx.Concurrent.Contention
import MongoSgx.Concurrent.Cuts
import MongoSgx.Replicated.Store
import MongoSgx.Replicated.Revocation
import MongoSgx.Adversary.Twins
import MongoSgx.Adversary.Secrecy
import MongoSgx.Signature.Layout
import MongoSgx.Sequential.Removal
import MongoSgx.Numeral.Signed
import MongoSgx.Sequential.Readable
import MongoSgx.Scanner.Vsscanf
import MongoSgx.Scanner.Exact
import MongoSgx.Scanner.RoundTrip
import MongoSgx.Host.Resolver
import MongoSgx.Host.Sockets
import MongoSgx.Host.Sendmsg
import MongoSgx.Adversary.Malformed
import MongoSgx.Ledger.Basic
import MongoSgx.Ledger.Programs
import MongoSgx.Handles.Lifecycle
import MongoSgx.Handles.Operations
import MongoSgx.Handles.Discipline
import MongoSgx.Numeral.Radix
import MongoSgx.Runs.Longest
import MongoSgx.Inet.Ntop
import MongoSgx.Inet.Text
import MongoSgx.Inet.Printing
import MongoSgx.Inet.Buffer
import MongoSgx.Inet.Parsing
import MongoSgx.Inet.RoundTrip
import MongoSgx.Concurrent.Growing
import MongoSgx.Concurrent.Service
import MongoSgx.Concurrent.Crashes
import MongoSgx.Adversary.Custody
import MongoSgx.Adversary.Origins
import MongoSgx.Inet.Grammar
import MongoSgx.Concurrent.Effort
import MongoSgx.Concurrent.Answers
import MongoSgx.Replicated.Clients
import MongoSgx.Clients.Programs
import MongoSgx.Clients.Sample
import MongoSgx.Host.Launch
import MongoSgx.Host.Token
import MongoSgx.Host.Recovery
