import QuickNote.Library.EventSystem
import QuickNote.Library.Segments
import QuickNote.Library.DocumentStore
import QuickNote.Library.SharedStore
import QuickNote.Foundation.FileURL
import QuickNote.Firestore.Path
import QuickNote.Models
import QuickNote.NoteList.Source
import QuickNote.NoteList.System
import QuickNote.NoteList.Loads
import QuickNote.NoteList.Accounts
import QuickNote.AddNote.Source
import QuickNote.AddNote.FileName
import QuickNote.NoteList.Convergence
import QuickNote.AddNote.Sheet
import QuickNote.AddNote.Attachment
import QuickNote.AddNote.Draft
import QuickNote.Detail.Panes
import QuickNote.Storage.Path
import QuickNote.Storage.Objects
import QuickNote.Auth.Source
import QuickNote.Auth.Registration
import QuickNote.Auth.Session
import QuickNote.Documents.Casts
import QuickNote.Devices.Deletion
import QuickNote.Documents.Paths
import QuickNote.Firestore.FieldChanges
import QuickNote.Firestore.ObjectValue
import QuickNote.Firestore.FieldMask
import QuickNote.Firestore.Mutation
import QuickNote.Firestore.Overlay
import QuickNote.Firestore.MutationQueue
import QuickNote.Firestore.LocalStore
import QuickNote.Firestore.LocalViews
import QuickNote.Firestore.LocalSteps
import QuickNote.Firestore.RemoteEvents
import QuickNote.Firestore.LocalRuns
import QuickNote.Firestore.WholeOverlays
import QuickNote.Firestore.CollectionQuery
import QuickNote.Firestore.UserData
import QuickNote.Firestore.FieldPath
import QuickNote.Documents.Requests
import QuickNote.Documents.Client
import QuickNote.Documents.Listing
import QuickNote.Documents.ShownNotes
import QuickNote.Documents.World
